import WordLang.Proofs.StmtCode

/-
  This file proves that the code of a program does what
  evaluating the program does.

  A routine is entered with its return address on top of
  the stack. It saves the base register of its caller below
  that address, and below it reserves the frame. On its way
  out it gives both registers back.

  Key definitions include:
    * `WordLang.Program.stackBytes`
    * `WordLang.Machine.entryEnv`
    * `WordLang.Machine.GivesBack`

  Key theorems include:
    * `WordLang.Program.prologue_runs`
    * `WordLang.Program.epilogue_runs`
    * `WordLang.Program.lower_realises`
-/

namespace WordLang

------------------------------------------------------------
-- Entry and Exit
------------------------------------------------------------

/-
  The bytes a routine needs below its return address: the
  saved base register, the frame, and the words it pushes.
-/
def Program.stackBytes
    (p : Program) : Nat :=
  8 + (frameSize p.locals).toNat +
    8 * Stmt.wordsAll p.body

namespace Machine

/-
  The environment that a routine starts with: a variable is
  what its word on the stack happens to hold, and the last
  value is what `rax` holds.
-/
def entryEnv
    (m : Machine) : Env where
  vars o :=
    .ofBitVec
      (m.memory.read
        (m.rsp - 8 - BitVec.ofNat 64 o.bytes.toNat))
  last := .ofBitVec m.rax

/-
  The caller of a routine that was entered in the state `m`
  finds its registers and its part of the stack again.
-/
structure GivesBack
    (m m' : Machine) : Prop where
  rsp : m'.rsp = m.rsp
  rbp : m'.rbp = m.rbp
  memory :
    ∀ x : Word,
      m.rsp.toNat ≤ x.toNat → m'.memory x = m.memory x

end Machine

namespace Program

/- The stack of a routine that is entered. -/
def activation
    (p : Program)
    (m : Machine)
    (hLocals : p.locals.size < 2 ^ 28)
    (hStack : p.stackBytes ≤ m.rsp.toNat) :
    Activation where
  locals := p.locals
  base := m.rsp - 8
  words := Stmt.wordsAll p.body
  size_lt := hLocals
  room_le := by
    unfold stackBytes at hStack
    bv_omega
  base_lt := by
    unfold stackBytes at hStack
    bv_omega

variable {p : Program}
variable {m : Machine}
variable {code : List Line}

/- What a routine does before its first statement. -/
structure Entered
    (A : Activation)
    (m m₁ : Machine) : Prop where
  holds : A.Holds m₁ m.entryEnv.vars
  rax : m₁.rax = m.rax
  rsp : m₁.rsp.toNat = A.bottom
  saved : m₁.memory.read A.base = m.rbp
  memory :
    ∀ x : Word,
      m.rsp.toNat ≤ x.toNat → m₁.memory x = m.memory x

/-
  The memory after the base register of the caller was
  saved.
-/
theorem entered_of_pushed
    (hLocals : p.locals.size < 2 ^ 28)
    (hStack : p.stackBytes ≤ m.rsp.toNat)
    {m₁ : Machine}
    (hRax : m₁.rax = m.rax)
    (hRbp : m₁.rbp = m.rsp - 8)
    (hRsp :
      m₁.rsp =
        m.rsp - 8 -
          BitVec.ofNat 64 (frameSize p.locals).toNat)
    (hMemory :
      m₁.memory = m.memory.write (m.rsp - 8) m.rbp) :
    Entered (p.activation m hLocals hStack) m m₁ := by
  have hBase : (m.rsp - 8).toNat + 8 = m.rsp.toNat := by
    unfold stackBytes at hStack
    bv_omega
  refine ⟨⟨hRbp, ?_⟩, hRax, ?_, ?_, ?_⟩
  · intro o hContains
    obtain ⟨_, _, hHigh⟩ :=
      (p.activation m hLocals hStack).slot_bounds hContains
    have hFrame :
        (p.activation m hLocals hStack).base.toNat + 8 =
          m.rsp.toNat := hBase
    have hSame :
        m₁.memory.read
            ((p.activation m hLocals hStack).slot o) =
          m.memory.read
            ((p.activation m hLocals hStack).slot o) := by
      rw [hMemory]
      apply Memory.read_congr (by omega)
      intro x _ hTo
      exact Memory.write_apart _ _ (by omega) (by omega)
    rw [hSame]
    exact (Int64.toBitVec_ofBitVec _).symm
  · show _ = (m.rsp - 8).toNat - _
    rw [hRsp]
    have hSize := UInt32.toNat_lt (frameSize p.locals)
    show _ = _ - (frameSize p.locals).toNat
    unfold stackBytes at hStack
    bv_omega
  · rw [hMemory]
    exact Memory.read_write _ _ _
  · intro x hStackByte
    rw [hMemory]
    exact Memory.write_apart _ _ (by omega) (by omega)

/- The code before the first statement. -/
theorem prologue_runs
    (hLocals : p.locals.size < 2 ^ 28)
    (hStack : p.stackBytes ≤ m.rsp.toNat)
    (hPc : m.pc = 0)
    (hCode : CodeAt code 0 ((prologue p.locals).map .instr)) :
    ∃ m₁,
      m.run code (prologue p.locals).length = .running m₁ ∧
      m₁.pc = (prologue p.locals).length ∧
      Entered (p.activation m hLocals hStack) m m₁ := by
  rw [prologue, List.map_append, CodeAt.append_iff] at hCode
  obtain ⟨⟨hPush, hMov, _⟩, hSub⟩ := hCode
  let m₁ : Machine :=
    (m.pushed m.rbp).next.set .rbp (m.rsp - 8)
  have hFirst : m.run code 2 = .running m₁ := by
    have hSaved :
        m.step code = .running (m.pushed m.rbp) :=
      Machine.step_instr (by rwa [hPc])
    have hNext :
        code[(m.pushed m.rbp).pc]? =
          some (.instr (.mov .rbp .rsp)) := by
      show code[m.pc + 1]? = _
      rwa [hPc]
    have hBase :
        (m.pushed m.rbp).step code = .running m₁ :=
      Machine.step_instr hNext
    simp only [Machine.run, hSaved, hBase]
  have hPc₁ : m₁.pc = 2 := by
    show m.pc + 1 + 1 = 2
    rw [hPc]
  by_cases hZero : frameSize p.locals = 0
  · have hLength : (prologue p.locals).length = 2 := by
      rw [prologue, if_pos hZero]
      rfl
    rw [hLength]
    refine ⟨m₁, hFirst, hPc₁, entered_of_pushed hLocals
      hStack rfl rfl ?_ rfl⟩
    show m.rsp - 8 = _
    rw [hZero]
    exact (BitVec.sub_zero _).symm
  · have hLength : (prologue p.locals).length = 2 + 1 := by
      rw [prologue, if_neg hZero]
      rfl
    rw [if_neg hZero] at hSub
    obtain ⟨hSub, _⟩ := hSub
    let v := BitVec.ofNat 64 (frameSize p.locals).toNat
    let m₂ : Machine :=
      { m₁.next with
        flags := some (.ofSub m₁.rsp v)
        rsp := m₁.rsp - v }
    have hSecond : m₁.step code = .running m₂ :=
      Machine.step_instr (by rwa [hPc₁])
    rw [hLength]
    refine ⟨m₂, ?_, ?_, entered_of_pushed hLocals hStack rfl
      rfl rfl rfl⟩
    · rw [Machine.run_add hFirst]
      simp only [Machine.run, hSecond]
    · show m₁.pc + 1 = _
      rw [hPc₁]

/- The code from the exit on. -/
theorem epilogue_runs
    {m₂ : Machine}
    {base rbp : Word}
    (hCode : CodeAt code m₂.pc epilogue)
    (hBase : m₂.rbp = base)
    (hSaved : m₂.memory.read base = rbp) :
    ∃ n m',
      m₂.run code n = .returned m' ∧
      m'.rax = m₂.rax ∧
      m'.rsp = base + 8 ∧
      m'.rbp = rbp ∧
      m'.memory = m₂.memory := by
  obtain ⟨hLabel, hMov, hPop, hRet, _⟩ := hCode
  let m₃ : Machine := m₂.next.next.set .rsp m₂.rbp
  let m₄ : Machine :=
    { m₃.next with
      rsp := m₂.rbp + 8
      rbp := m₂.memory.read m₂.rbp }
  have hLast : m₃.Reaches code m₄ :=
    .instr hPop rfl (.refl _ _)
  have hReaches : m₂.Reaches code m₄ :=
    .step (Machine.step_label hLabel)
      (.instr hMov rfl hLast)
  obtain ⟨n, hRun⟩ := hReaches
  refine ⟨n + 1, m₄, ?_, rfl, ?_, ?_, rfl⟩
  · rw [Machine.run_add hRun, Machine.run,
      Machine.step_instr hRet]
    rfl
  · rw [← hBase]
  · rw [← hSaved, ← hBase]

------------------------------------------------------------
-- Programs
------------------------------------------------------------

/- A machine that is entered does what an ending says. -/
def Realises
    (code : List Line)
    (bound : Nat)
    (m : Machine) :
    Ending → Prop
| .normal _ => False
| .returned v =>
    ∃ n m',
      m.run code n = .returned m' ∧
      m'.rax = v.toBitVec ∧
      m.GivesBack m'
| .fault => m.Fails code
| .timeout => m.RunsFor code bound

/- A machine at the exit of a routine leaves it. -/
theorem leaves_of_exit
    {A : Activation}
    {m₁ m₂ : Machine}
    {v : Int64}
    (hBase : A.base = m.rsp - 8)
    (hEntered : Entered A m m₁)
    (hReaches : m.Reaches code m₂)
    (hEpilogue : CodeAt code m₂.pc epilogue)
    (hRax : m₂.rax = v.toBitVec)
    (hRbp : m₂.rbp = A.base)
    (hKeeps : A.Keeps m₁ m₂)
    (bound : Nat) :
    Realises code bound m (.returned v) := by
  have hTop := A.base_lt
  have hBottom : A.bottom ≤ A.base.toNat := by
    unfold Activation.bottom
    omega
  have hStack : A.base.toNat + 8 = m.rsp.toNat := by
    rw [hBase] at hTop ⊢
    bv_omega
  have hKept :
      ∀ x : Word,
        A.base.toNat ≤ x.toNat →
        m₂.memory x = m₁.memory x := by
    intro x hAbove
    have hRsp := hEntered.rsp
    exact hKeeps.bytes x (by omega) (Or.inr hAbove)
  have hSaved : m₂.memory.read A.base = m.rbp := by
    rw [← hEntered.saved]
    apply Memory.read_congr (by omega)
    intro x hFrom _
    exact hKept x hFrom
  obtain ⟨n, m', hRun, hRax', hRsp', hRbp', hMemory⟩ :=
    epilogue_runs hEpilogue hRbp hSaved
  obtain ⟨k, hReached⟩ := hReaches
  refine ⟨k + n, m', by rw [Machine.run_add hReached, hRun],
    hRax'.trans hRax, ?_, hRbp', ?_⟩
  · rw [hRsp', hBase]
    bv_omega
  · intro x hAbove
    rw [hMemory, hKept x (by omega),
      hEntered.memory x hAbove]

/-
  The code of a program, entered at its start, does what
  evaluating the program does.
-/
theorem lower_realises
    (hFault : p.lower.fault? = none)
    (hLocals : p.locals.size < 2 ^ 28)
    (hControls : p.controls < 2 ^ 32)
    (hStack : p.stackBytes ≤ m.rsp.toNat)
    (hPc : m.pc = 0)
    (bound : Nat) :
    Realises p.lower.lines bound m
      (p.eval bound m.entryEnv) := by
  rcases emits_lower hFault with ⟨body, hBody, hLines⟩
  have hCode : CodeAt p.lower.lines 0 p.lower.lines := by
    simpa using CodeAt.of_append [] p.lower.lines []
  nth_rewrite 2 [hLines] at hCode
  rw [CodeAt.append_iff, CodeAt.append_iff, Nat.zero_add,
    List.length_map] at hCode
  obtain ⟨hPrologue, hBodyCode, hEpilogue⟩ := hCode
  let A := p.activation m hLocals hStack
  let R : Routine :=
    { A with
      code := p.lower.lines
      exit := (prologue p.locals).length + body.length
      nodup_labels := nodup_labels_lower hFault hControls
      label_exit := hEpilogue.1 }
  obtain ⟨m₁, hEntry, hPc₁, hEntered⟩ :=
    prologue_runs hLocals hStack hPc hPrologue
  have hReaches : m.Reaches p.lower.lines m₁ :=
    ⟨_, hEntry⟩
  have hAtRest : R.AtRest m₁ m.entryEnv :=
    ⟨hEntered.holds,
      hEntered.rax.trans (Int64.toBitVec_ofBitVec _).symm,
      hEntered.rsp⟩
  have hRun : R.Realises bound m₁ R.exit
      (Stmt.evalAll bound p.body m.entryEnv) := by
    have hAll :=
      Stmt.codeAll_realises (R := R) bound hBody
        (by rw [hPc₁]; exact hBodyCode) hAtRest
        (Nat.le_refl _)
    rwa [hPc₁] at hAll
  rw [Program.eval]
  cases hEval :
      Stmt.evalAll bound p.body m.entryEnv with
  | normal env =>
      rw [hEval] at hRun
      obtain ⟨m₂, hLater, hPc₂, hAtRest₂, hKeeps⟩ := hRun
      exact leaves_of_exit rfl hEntered
        (hReaches.trans hLater)
        (by rw [hPc₂]; exact hEpilogue) hAtRest₂.rax
        hAtRest₂.holds.base hKeeps bound
  | returned v =>
      rw [hEval] at hRun
      obtain ⟨m₂, hLater, hPc₂, hRax, hRbp, hKeeps⟩ := hRun
      exact leaves_of_exit rfl hEntered
        (hReaches.trans hLater)
        (by rw [hPc₂]; exact hEpilogue) hRax hRbp hKeeps
        bound
  | fault =>
      rw [hEval] at hRun
      exact hReaches.fails hRun
  | timeout =>
      rw [hEval] at hRun
      exact hReaches.runsFor hRun

end Program

end WordLang
