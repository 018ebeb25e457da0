import WordLang.Proofs.Machine
import WordLang.Proofs.Emission

/-
  This file follows runs of machine code.

  A run is put together from runs of consecutive pieces of
  code, so a piece is described by where it stands in the
  whole. Runs that end are followed by what they reach, and
  runs that do not end by the number of steps they can be
  followed for.

  Key definitions include:
    * `WordLang.CodeAt`
    * `WordLang.Machine.Reaches`
    * `WordLang.Machine.Fails`
    * `WordLang.Machine.RunsFor`

  Runs are put together by:
    * `WordLang.Machine.Reaches.trans`
    * `WordLang.Machine.Reaches.fails`
    * `WordLang.Machine.Reaches.runsFor`
    * `WordLang.Machine.RunsFor.succ`
-/

namespace WordLang

------------------------------------------------------------
-- Pieces of Code
------------------------------------------------------------

/- The lines `ls` stand in the code from index `pc` on. -/
def CodeAt
    (code : List Line)
    (pc : Nat) :
    List Line → Prop
| [] => True
| l :: ls => code[pc]? = some l ∧ CodeAt code (pc + 1) ls

namespace CodeAt

/- Consecutive pieces make up one piece. -/
theorem append_iff
    {code : List Line}
    {pc : Nat}
    {ls ls' : List Line} :
    CodeAt code pc (ls ++ ls') ↔
      CodeAt code pc ls ∧
      CodeAt code (pc + ls.length) ls' := by
  induction ls generalizing pc with
  | nil =>
      simp [CodeAt]
  | cons l ls ih =>
      rw [List.cons_append, CodeAt, CodeAt, ih, and_assoc,
        List.length_cons, Nat.add_right_comm,
        Nat.add_assoc pc]

/- Every part of the code stands where it is. -/
theorem of_append
    (before ls after : List Line) :
    CodeAt (before ++ (ls ++ after)) before.length ls := by
  induction ls generalizing before with
  | nil =>
      trivial
  | cons l ls ih =>
      refine ⟨by simp, ?_⟩
      have hRest := ih (before ++ [l])
      simpa using hRest

end CodeAt

/-
  A label that is defined once is found where it is
  defined.
-/
theorem idxOf?_label
    {code : List Line}
    {pc : Nat}
    {l : Label}
    (hNodup : (labelsOf code).Nodup)
    (hLabel : code[pc]? = some (.label l)) :
    code.idxOf? (.label l) = some pc := by
  induction code generalizing pc with
  | nil =>
      simp at hLabel
  | cons line code ih =>
      cases pc with
      | zero =>
          simp only [List.getElem?_cons_zero,
            Option.some.injEq] at hLabel
          simp [List.idxOf?_cons, hLabel]
      | succ pc =>
          rw [List.getElem?_cons_succ] at hLabel
          have hMem : l ∈ labelsOf code :=
            List.mem_filterMap.mpr
              ⟨.label l, List.mem_of_getElem? hLabel, rfl⟩
          have hOther : line ≠ .label l := by
            rintro rfl
            rw [labelsOf_label, List.nodup_cons] at hNodup
            exact hNodup.1 hMem
          have hRest : (labelsOf code).Nodup := by
            cases line with
            | instr i => exact hNodup
            | label l' => exact (List.nodup_cons.mp hNodup).2
          simp [List.idxOf?_cons, hOther, ih hRest hLabel]

namespace Machine

variable {code : List Line}
variable {m m' : Machine}

------------------------------------------------------------
-- Runs
------------------------------------------------------------

/- The machine comes to another state. -/
def Reaches
    (code : List Line)
    (m m' : Machine) : Prop :=
  ∃ n, m.run code n = .running m'

/- The machine comes to a divide error. -/
def Fails
    (code : List Line)
    (m : Machine) : Prop :=
  ∃ n, m.run code n = .divideError

/- The machine still runs after `n` steps. -/
def RunsFor
    (code : List Line)
    (n : Nat)
    (m : Machine) : Prop :=
  ∃ m', m.run code n = .running m'

/- A run goes on from the state it has reached. -/
theorem run_add
    {n : Nat}
    (hRun : m.run code n = .running m')
    (k : Nat) :
    m.run code (n + k) = m'.run code k := by
  induction n generalizing m with
  | zero =>
      cases hRun
      rw [Nat.zero_add]
  | succ n ih =>
      rw [run] at hRun
      rw [Nat.add_right_comm, run]
      cases hStep : m.step code with
      | running m₁ =>
          rw [hStep] at hRun
          exact ih hRun
      | returned m₁ =>
          rw [hStep] at hRun
          cases hRun
      | divideError =>
          rw [hStep] at hRun
          cases hRun
      | stuck =>
          rw [hStep] at hRun
          cases hRun

/- A machine that has stopped stays as it is. -/
theorem run_add_of_stopped
    {n : Nat}
    {status : Status}
    (hRun : m.run code n = status)
    (hStopped : ∀ m', status ≠ .running m')
    (k : Nat) :
    m.run code (n + k) = status := by
  induction n generalizing m with
  | zero =>
      exact absurd hRun.symm (hStopped m)
  | succ n ih =>
      rw [run] at hRun
      rw [Nat.add_right_comm, run]
      cases hStep : m.step code with
      | running m₁ =>
          rw [hStep] at hRun
          exact ih hRun
      | returned m₁ =>
          rw [hStep] at hRun
          exact hRun
      | divideError =>
          rw [hStep] at hRun
          exact hRun
      | stuck =>
          rw [hStep] at hRun
          exact hRun

/- A machine stops in one way only. -/
theorem stopped_unique
    {n n' : Nat}
    {status status' : Status}
    (hRun : m.run code n = status)
    (hRun' : m.run code n' = status')
    (hStopped : ∀ m', status ≠ .running m')
    (hStopped' : ∀ m', status' ≠ .running m') :
    status = status' := by
  calc
    status = m.run code (n + n') :=
      (run_add_of_stopped hRun hStopped n').symm
    _ = m.run code (n' + n) := by
      rw [Nat.add_comm]
    _ = status' :=
      run_add_of_stopped hRun' hStopped' n

/- A machine that runs for long runs for less. -/
theorem RunsFor.mono
    {n n' : Nat}
    (hRuns : RunsFor code n' m)
    (hLess : n ≤ n') :
    RunsFor code n m := by
  obtain ⟨m', hRun⟩ := hRuns
  obtain ⟨k, rfl⟩ := Nat.exists_eq_add_of_le hLess
  cases hStatus : m.run code n with
  | running m₁ =>
      exact ⟨m₁, hStatus⟩
  | returned m₁ =>
      rw [run_add_of_stopped hStatus (by simp)] at hRun
      cases hRun
  | divideError =>
      rw [run_add_of_stopped hStatus (by simp)] at hRun
      cases hRun
  | stuck =>
      rw [run_add_of_stopped hStatus (by simp)] at hRun
      cases hRun

/- A machine that can take a step runs for longer. -/
theorem RunsFor.succ
    {n : Nat}
    (hStep : m.step code = .running m')
    (hRuns : RunsFor code n m') :
    RunsFor code (n + 1) m := by
  obtain ⟨m₁, hRun⟩ := hRuns
  refine ⟨m₁, ?_⟩
  rw [run, hStep]
  exact hRun

namespace Reaches

theorem refl
    (code : List Line)
    (m : Machine) :
    Reaches code m m :=
  ⟨0, rfl⟩

theorem trans
    {m₁ : Machine}
    (hFirst : Reaches code m m₁)
    (hSecond : Reaches code m₁ m') :
    Reaches code m m' := by
  obtain ⟨n, hFirst⟩ := hFirst
  obtain ⟨k, hSecond⟩ := hSecond
  exact ⟨n + k, by rw [run_add hFirst, hSecond]⟩

/- A step, and what is reached after it. -/
theorem step
    {m₁ : Machine}
    (hStep : m.step code = .running m₁)
    (hRest : Reaches code m₁ m') :
    Reaches code m m' := by
  obtain ⟨n, hRun⟩ := hRest
  refine ⟨n + 1, ?_⟩
  rw [run, hStep]
  exact hRun

theorem fails
    (hReaches : Reaches code m m')
    (hFails : Fails code m') :
    Fails code m := by
  obtain ⟨n, hRun⟩ := hReaches
  obtain ⟨k, hFails⟩ := hFails
  exact ⟨n + k, by rw [run_add hRun, hFails]⟩

theorem runsFor
    {n : Nat}
    (hReaches : Reaches code m m')
    (hRuns : RunsFor code n m') :
    RunsFor code n m := by
  obtain ⟨k, hRun⟩ := hReaches
  obtain ⟨m₁, hRuns⟩ := hRuns
  have hLong : RunsFor code (k + n) m :=
    ⟨m₁, by rw [run_add hRun, hRuns]⟩
  exact hLong.mono (by omega)

end Reaches

------------------------------------------------------------
-- Steps
------------------------------------------------------------

/- A step at an instruction carries it out. -/
theorem step_instr
    {i : Instr}
    (hLine : code[m.pc]? = some (.instr i)) :
    m.step code = m.exec code i := by
  rw [step, hLine]

/- A step at a label goes to the next line. -/
theorem step_label
    {l : Label}
    (hLine : code[m.pc]? = some (.label l)) :
    m.step code = .running m.next := by
  rw [step, hLine]

/- A jump goes to where its label is defined. -/
theorem jump_eq
    {l : Label}
    {pc : Nat}
    (hNodup : (labelsOf code).Nodup)
    (hLabel : code[pc]? = some (.label l)) :
    m.jump code l = .running { m with pc := pc } := by
  rw [jump, idxOf?_label hNodup hLabel]

end Machine

end WordLang
