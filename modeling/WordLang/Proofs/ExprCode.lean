import WordLang.Proofs.Evaluation
import WordLang.Proofs.FrameLayout
import WordLang.Proofs.Run

/-
  This file proves that the code of an expression computes
  its value.

  While a routine runs, its base register points to the top
  of its frame. The variables lie in the frame, and the
  words pushed by unfinished expressions lie below it. The
  code of an expression leaves its value in `rax`, changes
  the variables as the expression does, and neither moves
  the stack nor touches a word pushed before.

  Key definitions include:
    * `WordLang.Expr.words`
    * `WordLang.Activation`
    * `WordLang.Activation.Holds`
    * `WordLang.Activation.Keeps`

  Key theorems include:
    * `WordLang.BinOp.code_runs`
    * `WordLang.Expr.code_runs`
-/

namespace WordLang

------------------------------------------------------------
-- Operations
------------------------------------------------------------

namespace Machine

/-
  The machine `m'` comes after `m`, with another value in
  `rax` but the same stack, frame and memory.
-/
structure Computes
    (m m' : Machine)
    (length : Nat)
    (v : Int64) : Prop where
  pc : m'.pc = m.pc + length
  rax : m'.rax = v.toBitVec
  rsp : m'.rsp = m.rsp
  rbp : m'.rbp = m.rbp
  memory : m'.memory = m.memory

/- A step at an instruction, and what is reached after it. -/
theorem Reaches.instr
    {code : List Line}
    {m m₁ m' : Machine}
    {i : Instr}
    (hLine : code[m.pc]? = some (.instr i))
    (hExec : m.exec code i = .running m₁)
    (hRest : Reaches code m₁ m') :
    Reaches code m m' :=
  .step (by rw [step_instr hLine, hExec]) hRest

/- A divide error at an instruction. -/
theorem Fails.instr
    {code : List Line}
    {m : Machine}
    {i : Instr}
    (hLine : code[m.pc]? = some (.instr i))
    (hExec : m.exec code i = .divideError) :
    Fails code m := by
  refine ⟨1, ?_⟩
  rw [run, step_instr hLine, hExec]

end Machine

namespace BinOp

variable {code : List Line}
variable {m : Machine}

/- The low bits of two bit vectors put together. -/
theorem setWidth_append_low
    {w v : Nat}
    (high : BitVec w)
    (low : BitVec v) :
    (high ++ low).setWidth v = low := by
  apply BitVec.eq_of_getLsbD_eq
  intro i hBit
  simp [BitVec.getLsbD_append, hBit]

/- A comparison yields one or zero. -/
theorem compare_runs
    {cond : Cond}
    {a b : Int64}
    (hCode : CodeAt code m.pc ((compare cond).map .instr))
    (hRax : m.rax = a.toBitVec)
    (hRdi : m.rdi = b.toBitVec) :
    ∃ m',
      m.Reaches code m' ∧
      m.Computes m' 3
        (if cond.compares a.toInt b.toInt then 1 else 0) := by
  obtain ⟨hCmp, hSet, hExtend, _⟩ := hCode
  refine ⟨_, .instr hCmp rfl (.instr hSet rfl
    (.instr hExtend rfl (.refl _ _))), rfl, ?_, rfl, rfl,
    rfl⟩
  have hLow :=
    setWidth_append_low (m.rax.extractLsb' 8 56)
      (if cond.holds (.ofSub m.rax m.rdi) then 1#8
        else 0#8)
  refine (congrArg (BitVec.setWidth 64) hLow).trans ?_
  rw [Cond.holds_ofSub, hRax, hRdi, Int64.toInt_toBitVec,
    Int64.toInt_toBitVec]
  by_cases hCond : cond.compares a.toInt b.toInt = true
  · simp [hCond]
  · simp [hCond]

/- The code of a division divides, or has a divide error. -/
theorem divide_runs
    {a b : Int64}
    (hCode : CodeAt code m.pc (div.code.map .instr))
    (hRax : m.rax = a.toBitVec)
    (hRdi : m.rdi = b.toBitVec) :
    match div.eval a b with
    | some v =>
        ∃ m',
          m.Reaches code m' ∧
          m.Computes m' div.code.length v
    | none => m.Fails code := by
  rcases hCode with ⟨hExtend, hDivide, _⟩
  have hFault :
      (m.rdi = 0 ∨
          (m.rax = BitVec.intMin 64 ∧ m.rdi = -1)) ↔
        (b = 0 ∨ (a = Int64.minValue ∧ b = -1)) := by
    rw [hRax, hRdi, ← Int64.toBitVec_inj (a := a),
      ← Int64.toBitVec_inj (a := b),
      ← Int64.toBitVec_inj (a := b)]
    rfl
  let m₁ : Machine :=
    { m.next with rdx := Machine.signWord m.rax }
  have hFirst : m.Reaches code m₁ :=
    .instr hExtend rfl (.refl _ _)
  have hDivided := Machine.divide?_signWord m.rax m.rdi
  rw [eval]
  by_cases hTrap : b = 0 ∨ (a = Int64.minValue ∧ b = -1)
  · rw [if_pos (hFault.mpr hTrap)] at hDivided
    rw [if_pos hTrap]
    apply hFirst.fails
    apply Machine.Fails.instr hDivide
    exact Machine.exec_idiv_error hDivided
  · rw [if_neg (mt hFault.mp hTrap)] at hDivided
    rw [if_neg hTrap]
    have hExec : m₁.exec code (.idiv .rdi) = _ :=
      Machine.exec_idiv hDivided
    refine ⟨_, hFirst.trans
      (.instr hDivide hExec (.refl _ _)), rfl, ?_, rfl,
      rfl, rfl⟩
    show m.rax.sdiv m.rdi = _
    rw [hRax, hRdi, Int64.toBitVec_div]

/-
  The code of an operation combines the values in `rax` and
  `rdi` as evaluation does.
-/
theorem code_runs
    {op : BinOp}
    {a b : Int64}
    (hCode : CodeAt code m.pc (op.code.map .instr))
    (hRax : m.rax = a.toBitVec)
    (hRdi : m.rdi = b.toBitVec) :
    match op.eval a b with
    | some v =>
        ∃ m',
          m.Reaches code m' ∧
          m.Computes m' op.code.length v
    | none => m.Fails code := by
  cases op with
  | add =>
      obtain ⟨hAdd, _⟩ := hCode
      refine ⟨_, .instr hAdd rfl (.refl _ _), rfl, ?_, rfl,
        rfl, rfl⟩
      show m.rax + m.rdi = _
      rw [hRax, hRdi, Int64.toBitVec_add]
  | sub =>
      obtain ⟨hSub, _⟩ := hCode
      refine ⟨_, .instr hSub rfl (.refl _ _), rfl, ?_, rfl,
        rfl, rfl⟩
      show m.rax - m.rdi = _
      rw [hRax, hRdi, Int64.toBitVec_sub]
  | mul =>
      obtain ⟨hMul, _⟩ := hCode
      refine ⟨_, .instr hMul rfl (.refl _ _), rfl, ?_, rfl,
        rfl, rfl⟩
      show m.rax * m.rdi = _
      rw [hRax, hRdi, Int64.toBitVec_mul]
  | div =>
      exact divide_runs hCode hRax hRdi
  | eq =>
      obtain ⟨m', hReaches, hComputes⟩ :=
        compare_runs hCode hRax hRdi
      refine ⟨m', hReaches, ?_⟩
      change m.Computes m' 3 _
      simpa only [Cond.compares, decide_eq_true_eq,
        Int64.toInt_inj] using hComputes
  | ne =>
      obtain ⟨m', hReaches, hComputes⟩ :=
        compare_runs hCode hRax hRdi
      refine ⟨m', hReaches, ?_⟩
      change m.Computes m' 3 _
      simpa only [Cond.compares, decide_eq_true_eq, ne_eq,
        Int64.toInt_inj, ite_not] using hComputes
  | lt =>
      obtain ⟨m', hReaches, hComputes⟩ :=
        compare_runs hCode hRax hRdi
      refine ⟨m', hReaches, ?_⟩
      change m.Computes m' 3 _
      simpa only [Cond.compares, decide_eq_true_eq,
        ← Int64.lt_iff_toInt_lt] using hComputes
  | le =>
      obtain ⟨m', hReaches, hComputes⟩ :=
        compare_runs hCode hRax hRdi
      refine ⟨m', hReaches, ?_⟩
      change m.Computes m' 3 _
      simpa only [Cond.compares, decide_eq_true_eq,
        ← Int64.le_iff_toInt_le] using hComputes

end BinOp

------------------------------------------------------------
-- Frames
------------------------------------------------------------

/- The number of words an expression pushes at most. -/
def Expr.words : Expr → Nat
| int _ _ => 0
| var _ _ => 0
| binary _ lhs rhs _ => max lhs.words (1 + rhs.words)
| assign _ value _ => 1 + value.words

/-
  The part of the stack that belongs to a running routine:
  the frame of its variables, which ends at `base`, and
  below it the room for a number of pushed words.
-/
structure Activation where
  locals : Locals
  base : Word
  words : Nat
  size_lt : locals.size < 2 ^ 28
  room_le :
    (Program.frameSize locals).toNat + 8 * words ≤
      base.toNat
  base_lt : base.toNat + 8 < 2 ^ 64

namespace Activation

variable {A : Activation}
variable {m m₁ m' : Machine}

/- The lowest address of the frame. -/
def bottom
    (A : Activation) : Nat :=
  A.base.toNat - (Program.frameSize A.locals).toNat

/- The address of a variable. -/
def slot
    (A : Activation)
    (o : Offset) : Word :=
  A.base - BitVec.ofNat 64 o.bytes.toNat

/- The machine has the frame, and the variables are in it. -/
structure Holds
    (A : Activation)
    (m : Machine)
    (vars : Vars) : Prop where
  base : m.rbp = A.base
  read :
    ∀ o,
      A.locals.contains o = true →
      m.memory.read (A.slot o) = (vars o).toBitVec

/-
  The stack has not moved, and no byte of it outside of the
  frame has changed.
-/
structure Keeps
    (A : Activation)
    (m m' : Machine) : Prop where
  rsp : m'.rsp = m.rsp
  bytes :
    ∀ x : Word,
      m.rsp.toNat ≤ x.toNat →
      (x.toNat < A.bottom ∨ A.base.toNat ≤ x.toNat) →
      m'.memory x = m.memory x

namespace Keeps

theorem trans
    (hFirst : A.Keeps m m₁)
    (hSecond : A.Keeps m₁ m') :
    A.Keeps m m' := by
  refine ⟨hSecond.rsp.trans hFirst.rsp, ?_⟩
  intro x hStack hOutside
  rw [hSecond.bytes x (by rwa [hFirst.rsp]) hOutside,
    hFirst.bytes x hStack hOutside]

/- The memory may not have changed at all. -/
theorem of_memory_eq
    (hRsp : m'.rsp = m.rsp)
    (hMemory : m'.memory = m.memory) :
    A.Keeps m m' :=
  ⟨hRsp, fun x _ _ => by rw [hMemory]⟩

end Keeps

/- Where variables lie. -/
theorem slot_bounds
    (A : Activation)
    {o : Offset}
    (hContains : A.locals.contains o = true) :
    (A.slot o).toNat + o.bytes.toNat = A.base.toNat ∧
      A.bottom ≤ (A.slot o).toNat ∧
      (A.slot o).toNat + 8 ≤ A.base.toNat := by
  obtain ⟨_, hLow, hHigh⟩ :=
    (Locals.contains_iff A.locals o).mp hContains
  have hFrame :=
    Program.bytes_le_frameSize A.locals A.size_lt
  have hRoom := A.room_le
  have hSlot :
      (A.slot o).toNat + o.bytes.toNat =
        A.base.toNat := by
    have hOffset : o.bytes.toNat < 2 ^ 32 :=
      UInt32.toNat_lt o.bytes
    unfold slot
    bv_omega
  unfold bottom
  omega

/- Different variables do not overlap. -/
theorem slot_apart
    (A : Activation)
    {o o' : Offset}
    (hContains : A.locals.contains o = true)
    (hContains' : A.locals.contains o' = true)
    (hOther : o' ≠ o) :
    (A.slot o').toNat + 8 ≤ (A.slot o).toNat ∨
      (A.slot o).toNat + 8 ≤ (A.slot o').toNat := by
  obtain ⟨hSlot, _, _⟩ := A.slot_bounds hContains
  obtain ⟨hSlot', _, _⟩ := A.slot_bounds hContains'
  obtain ⟨hWord, _, _⟩ :=
    (Locals.contains_iff A.locals o).mp hContains
  obtain ⟨hWord', _, _⟩ :=
    (Locals.contains_iff A.locals o').mp hContains'
  have hBytes : o'.bytes.toNat ≠ o.bytes.toNat := by
    intro hSame
    apply hOther
    rcases o with ⟨bytes⟩
    rcases o' with ⟨bytes'⟩
    rw [UInt32.toNat_inj] at hSame
    exact congrArg Offset.mk hSame
  omega

end Activation

------------------------------------------------------------
-- Changes of the Stack
------------------------------------------------------------

namespace Activation

variable {A : Activation}
variable {m m' : Machine}
variable {vars : Vars}

/- Words below the frame do not matter to the variables. -/
theorem Holds.of_frame_eq
    (hHolds : A.Holds m vars)
    (hBase : m'.rbp = m.rbp)
    (hBytes :
      ∀ x : Word,
        A.bottom ≤ x.toNat →
        x.toNat < A.base.toNat →
        m'.memory x = m.memory x) :
    A.Holds m' vars := by
  refine ⟨hBase.trans hHolds.base, ?_⟩
  intro o hContains
  obtain ⟨_, hLow, hHigh⟩ := A.slot_bounds hContains
  rw [← hHolds.read o hContains]
  apply Memory.read_congr (by omega)
  intro x hFrom hTo
  exact hBytes x (by omega) (by omega)

/- Writing to a variable changes this variable only. -/
theorem Holds.write
    {o : Offset}
    {v : Int64}
    (hHolds : A.Holds m vars)
    (hContains : A.locals.contains o = true)
    (hBase : m'.rbp = m.rbp)
    (hMemory :
      m'.memory = m.memory.write (A.slot o) v.toBitVec) :
    A.Holds m' (Function.update vars o v) := by
  refine ⟨hBase.trans hHolds.base, ?_⟩
  intro o' hContains'
  rw [hMemory]
  by_cases hSame : o' = o
  · rw [hSame, Memory.read_write, Function.update_self]
  · obtain ⟨_, _, hHigh⟩ := A.slot_bounds hContains
    obtain ⟨_, _, hHigh'⟩ := A.slot_bounds hContains'
    have hApart := A.slot_apart hContains hContains' hSame
    have hBase := A.base_lt
    rw [Function.update_of_ne hSame,
      ← hHolds.read o' hContains']
    apply Memory.read_congr (by omega)
    intro x hFrom hTo
    exact Memory.write_apart _ _ (by omega) (by omega)

/-
  Below the frame lie `d` words, and there is room for `n`
  words more.
-/
def Room
    (A : Activation)
    (m : Machine)
    (d n : Nat) : Prop :=
  m.rsp.toNat + 8 * d = A.bottom ∧ d + n ≤ A.words

theorem Room.mono
    {d n n' : Nat}
    (hRoom : A.Room m d n')
    (hLess : n ≤ n') :
    A.Room m d n :=
  ⟨hRoom.1, by have := hRoom.2; omega⟩

theorem Room.of_rsp_eq
    {d n : Nat}
    (hRoom : A.Room m d n)
    (hRsp : m'.rsp = m.rsp) :
    A.Room m' d n :=
  ⟨by rw [hRsp]; exact hRoom.1, hRoom.2⟩

/- Where there is room, the stack can grow by a word. -/
theorem Room.rsp_bounds
    {d n : Nat}
    (hRoom : A.Room m d (n + 1)) :
    (m.rsp - 8).toNat + 8 = m.rsp.toNat ∧
      m.rsp.toNat ≤ A.bottom ∧
      A.bottom ≤ A.base.toNat := by
  obtain ⟨hDepth, hWords⟩ := hRoom
  have hBelow := A.room_le
  have hBottom : A.bottom ≤ A.base.toNat := by
    unfold bottom
    omega
  have hEight : 8 ≤ m.rsp.toNat := by
    unfold bottom at hDepth
    omega
  refine ⟨?_, by omega, hBottom⟩
  bv_omega

end Activation

namespace Machine

/- The machine after a word was pushed. -/
def pushed
    (m : Machine)
    (v : Word) : Machine :=
  { m.next with
    rsp := m.rsp - 8
    memory := m.memory.write (m.rsp - 8) v }

end Machine

namespace Activation

variable {A : Activation}
variable {m m' : Machine}
variable {vars : Vars}

/- A push leaves the bytes from the old stack top on. -/
theorem pushed_memory
    {d n : Nat}
    (hRoom : A.Room m d (n + 1))
    (v : Word)
    {x : Word}
    (hStack : m.rsp.toNat ≤ x.toNat) :
    (m.pushed v).memory x = m.memory x := by
  obtain ⟨hRsp, hBottom, hTop⟩ := hRoom.rsp_bounds
  have hBase := A.base_lt
  exact Memory.write_apart _ _ (by omega) (by omega)

/- A push takes a word of the room and no variable. -/
theorem holds_pushed
    {d n : Nat}
    (hHolds : A.Holds m vars)
    (hRoom : A.Room m d (n + 1))
    (v : Word) :
    A.Holds (m.pushed v) vars ∧
      A.Room (m.pushed v) (d + 1) n := by
  obtain ⟨hRsp, hBottom, _⟩ := hRoom.rsp_bounds
  refine ⟨hHolds.of_frame_eq rfl ?_, ?_, ?_⟩
  · intro x hLow _
    exact pushed_memory hRoom v (by omega)
  · show (m.rsp - 8).toNat + 8 * (d + 1) = A.bottom
    have hDepth := hRoom.1
    omega
  · have hWords := hRoom.2
    omega

/-
  A word that was pushed is still there after code that
  keeps the stack, and so is all that lay above it.
-/
theorem Keeps.pop
    {d n : Nat}
    {v : Word}
    (hKeeps : A.Keeps (m.pushed v) m')
    (hRoom : A.Room m d (n + 1)) :
    m'.memory.read m'.rsp = v ∧
      m'.rsp + 8 = m.rsp ∧
      ∀ x : Word,
        m.rsp.toNat ≤ x.toNat →
        (x.toNat < A.bottom ∨ A.base.toNat ≤ x.toNat) →
        m'.memory x = m.memory x := by
  obtain ⟨hRsp, hBottom, hTop⟩ := hRoom.rsp_bounds
  have hBase := A.base_lt
  have hMoved : m'.rsp = m.rsp - 8 := hKeeps.rsp
  refine ⟨?_, ?_, ?_⟩
  · have hSame :
        m'.memory.read m'.rsp =
          (m.pushed v).memory.read m'.rsp := by
      apply Memory.read_congr
      · rw [hMoved]
        omega
      · intro x hFrom hTo
        rw [hMoved] at hFrom hTo
        exact hKeeps.bytes x hFrom (by omega)
    rw [hSame, hMoved]
    exact Memory.read_write _ _ _
  · rw [hMoved]
    bv_omega
  · intro x hStack hOutside
    have hLower : (m.pushed v).rsp.toNat ≤ x.toNat := by
      show (m.rsp - 8).toNat ≤ x.toNat
      omega
    rw [hKeeps.bytes x hLower hOutside]
    exact pushed_memory hRoom v hStack

end Activation

------------------------------------------------------------
-- Expressions
------------------------------------------------------------

/-
  The machine `m'` comes after `m` at the end of a piece of
  code, with a value in `rax`, the given variables in the
  frame, and the stack as it was.
-/
structure Activation.Leaves
    (A : Activation)
    (m m' : Machine)
    (length : Nat)
    (v : Int64)
    (vars : Vars) : Prop where
  pc : m'.pc = m.pc + length
  rax : m'.rax = v.toBitVec
  holds : A.Holds m' vars
  keeps : A.Keeps m m'

namespace Expr

/-
  The code of an expression, wherever it stands, runs to its
  end with the value of the expression in `rax`, or to a
  divide error if there is no value.
-/
def CodeRuns
    (A : Activation)
    (code : List Line)
    (e : Expr) : Prop :=
  ∀ {k k' d : Nat}
    {ls : List Line}
    {m : Machine}
    {vars : Vars},
    (e.code A.locals).Emits k ls k' →
    CodeAt code m.pc ls →
    A.Holds m vars →
    A.Room m d e.words →
    match e.eval vars with
    | some (v, vars') =>
        ∃ m',
          m.Reaches code m' ∧
          A.Leaves m m' ls.length v vars'
    | none => m.Fails code

variable {A : Activation}
variable {code : List Line}

/- The code of an operation, after that of its operands. -/
theorem operation_runs
    (op : BinOp)
    {a b : Int64}
    {m m₂ : Machine}
    {d n : Nat}
    {vars : Vars}
    (hCode :
      CodeAt code m₂.pc
        ((Instr.mov .rdi .rax :: .pop .rax ::
          op.code).map .instr))
    (hRax : m₂.rax = b.toBitVec)
    (hHolds : A.Holds m₂ vars)
    (hRoom : A.Room m d (n + 1))
    (hKeeps : A.Keeps (m.pushed a.toBitVec) m₂) :
    match op.eval a b with
    | some v =>
        ∃ m',
          m₂.Reaches code m' ∧
          m'.pc = m₂.pc + (2 + op.code.length) ∧
          m'.rax = v.toBitVec ∧
          A.Holds m' vars ∧
          A.Keeps m m'
    | none => m₂.Fails code := by
  obtain ⟨hMov, hPop, hOp⟩ := hCode
  obtain ⟨hWord, hRsp, hBytes⟩ := hKeeps.pop hRoom
  let m₃ : Machine := m₂.next.set .rdi m₂.rax
  let m₄ : Machine :=
    { m₃.next with
      rsp := m₂.rsp + 8
      rax := m₂.memory.read m₂.rsp }
  have hReaches : m₂.Reaches code m₄ :=
    .instr hMov rfl (.instr hPop rfl (.refl _ _))
  have hRuns :=
    BinOp.code_runs (m := m₄) (b := b) hOp hWord hRax
  cases hEval : op.eval a b with
  | none =>
      rw [hEval] at hRuns
      exact hReaches.fails hRuns
  | some v =>
      rw [hEval] at hRuns
      obtain ⟨m', hRest, hComputes⟩ := hRuns
      refine ⟨m', hReaches.trans hRest, ?_, hComputes.rax,
        ?_, ?_, ?_⟩
      · rw [hComputes.pc]
        show m₂.pc + 1 + 1 + _ = _
        omega
      · exact hHolds.of_frame_eq hComputes.rbp
          (fun x _ _ => congrFun hComputes.memory x)
      · exact hComputes.rsp.trans hRsp
      · intro x hStack hOutside
        rw [hComputes.memory]
        exact hBytes x hStack hOutside

/- The code of an operation on two operands. -/
theorem binary_runs
    (op : BinOp)
    {lhs rhs : Expr}
    (span : Span)
    (hLhsRuns : lhs.CodeRuns A code)
    (hRhsRuns : rhs.CodeRuns A code) :
    (binary op lhs rhs span).CodeRuns A code := by
  intro k k' d ls m vars hEmits hCode hHolds hRoom
  simp only [Expr.code, Emitter.emits_append,
    Emitter.emits_instrs] at hEmits
  obtain ⟨lhsLines, k₁, _, hLhs, ⟨_, _, _, ⟨rfl, rfl⟩,
    ⟨rhsLines, k₂, _, hRhs, ⟨rfl, rfl⟩, rfl⟩, rfl⟩,
    rfl⟩ := hEmits
  rw [CodeAt.append_iff, CodeAt.append_iff,
    CodeAt.append_iff] at hCode
  obtain ⟨hLhsCode, ⟨hPush, _⟩, hRhsCode, hOpCode⟩ := hCode
  have hLeftRun :=
    hLhsRuns hLhs hLhsCode hHolds
      (hRoom.mono (Nat.le_max_left _ _))
  rw [Expr.eval]
  cases hLhsEval : lhs.eval vars with
  | none =>
      rw [hLhsEval] at hLeftRun
      exact hLeftRun
  | some left =>
      obtain ⟨a, vars₁⟩ := left
      rw [hLhsEval] at hLeftRun
      obtain ⟨m₁, hFirst, hLeft⟩ := hLeftRun
      -- The left operand is pushed, below what was there.
      have hRoom₁ : A.Room m₁ d (rhs.words + 1) :=
        (hRoom.mono (by rw [Expr.words]; omega)).of_rsp_eq
          hLeft.keeps.rsp
      obtain ⟨hHolds₁, hRoom₂⟩ :=
        Activation.holds_pushed hLeft.holds hRoom₁
          a.toBitVec
      have hPushed :
          m₁.Reaches code (m₁.pushed a.toBitVec) := by
        rw [← hLeft.rax]
        exact .instr (by rwa [hLeft.pc]) rfl (.refl _ _)
      have hStart := hFirst.trans hPushed
      have hRhsCode₁ :
          CodeAt code (m₁.pushed a.toBitVec).pc
            rhsLines := by
        show CodeAt code (m₁.pc + 1) rhsLines
        rwa [hLeft.pc]
      have hRightRun :=
        hRhsRuns hRhs hRhsCode₁ hHolds₁ hRoom₂
      cases hRhsEval : rhs.eval vars₁ with
      | none =>
          rw [hRhsEval] at hRightRun
          simp only [Option.bind_eq_bind, hRhsEval,
            Option.bind_some, Option.bind_none]
          exact hStart.fails hRightRun
      | some right =>
          obtain ⟨b, vars₂⟩ := right
          rw [hRhsEval] at hRightRun
          obtain ⟨m₂, hSecond, hRight⟩ := hRightRun
          have hOpCode₂ :
              CodeAt code m₂.pc
                ((Instr.mov .rdi .rax :: .pop .rax ::
                  op.code).map .instr) := by
            rw [hRight.pc]
            show CodeAt code
              (m₁.pc + 1 + rhsLines.length) _
            rwa [hLeft.pc]
          have hOpRun :=
            operation_runs op hOpCode₂ hRight.rax
              hRight.holds hRoom₁ hRight.keeps
          simp only [Option.bind_eq_bind, hRhsEval,
            Option.bind_some]
          cases hOpEval : op.eval a b with
          | none =>
              rw [hOpEval] at hOpRun
              exact (hStart.trans hSecond).fails hOpRun
          | some v =>
              rw [hOpEval] at hOpRun
              obtain ⟨m', hLast, hPc, hRax, hHolds',
                hKeeps'⟩ := hOpRun
              refine ⟨m', (hStart.trans hSecond).trans
                hLast, ?_, hRax, hHolds',
                hLeft.keeps.trans hKeeps'⟩
              rw [hPc, hRight.pc]
              show m₁.pc + 1 + _ + _ = _
              rw [hLeft.pc]
              simp only [List.length_append, List.length_map,
                List.length_cons, List.length_nil]
              omega

/- The code that stores a value, after that of the value. -/
theorem store_runs
    {offset : Offset}
    {v : Int64}
    {m m₂ : Machine}
    {d n : Nat}
    {vars : Vars}
    (hCode :
      CodeAt code m₂.pc
        [.instr (.pop .rdi), .instr (.store .rdi .rax)])
    (hContains : A.locals.contains offset = true)
    (hRax : m₂.rax = v.toBitVec)
    (hHolds : A.Holds m₂ vars)
    (hRoom : A.Room m d (n + 1))
    (hKeeps : A.Keeps (m.pushed (A.slot offset)) m₂) :
    ∃ m',
      m₂.Reaches code m' ∧
      m'.pc = m₂.pc + 2 ∧
      m'.rax = v.toBitVec ∧
      A.Holds m' (Function.update vars offset v) ∧
      A.Keeps m m' := by
  rcases hCode with ⟨hPop, hStore, _⟩
  rcases hKeeps.pop hRoom with ⟨hWord, hRsp, hBytes⟩
  let m₃ : Machine :=
    { m₂.next with
      rsp := m₂.rsp + 8
      rdi := m₂.memory.read m₂.rsp }
  let m₄ : Machine :=
    { m₃.next with
      memory :=
        m₂.memory.write (m₂.memory.read m₂.rsp) m₂.rax }
  have hReaches : m₂.Reaches code m₄ :=
    .instr hPop rfl (.instr hStore rfl (.refl _ _))
  have hMemory :
      m₄.memory =
        m₂.memory.write (A.slot offset) v.toBitVec := by
    rw [← hWord, ← hRax]
  refine ⟨m₄, hReaches, rfl, hRax,
    hHolds.write hContains rfl hMemory, hRsp, ?_⟩
  intro x hStack hOutside
  rcases A.slot_bounds hContains with ⟨_, hLow, hHigh⟩
  have hBase := A.base_lt
  rw [hMemory, Memory.write_apart _ _ (by omega) (by omega)]
  exact hBytes x hStack hOutside

/- The code of an assignment. -/
theorem assign_runs
    (target : Expr)
    {value : Expr}
    (span : Span)
    (hValueRuns : value.CodeRuns A code) :
    (assign target value span).CodeRuns A code := by
  intro k k' d ls m vars hEmits hCode hHolds hRoom
  simp only [Expr.code, Emitter.emits_append,
    Emitter.emits_instrs, emits_address] at hEmits
  obtain ⟨_, _, _, ⟨offset, _, rfl, hContains, rfl, rfl⟩,
    ⟨_, _, _, ⟨rfl, rfl⟩, ⟨valueLines, k₁, _, hValue,
    ⟨rfl, rfl⟩, rfl⟩, rfl⟩, rfl⟩ := hEmits
  rw [CodeAt.append_iff, CodeAt.append_iff,
    CodeAt.append_iff] at hCode
  obtain ⟨⟨hLea, _⟩, ⟨hPush, _⟩, hValueCode, hPop, hStore,
    _⟩ := hCode
  let m₁ : Machine := m.next.set .rax (A.slot offset)
  have hAddress : m.Reaches code m₁ := by
    refine .instr hLea ?_ (.refl _ _)
    show Status.running (m.next.set .rax
      (m.rbp - BitVec.ofNat 64 offset.bytes.toNat)) = _
    rw [hHolds.base]
    rfl
  have hHolds₁ : A.Holds m₁ vars :=
    hHolds.of_frame_eq rfl (fun _ _ _ => rfl)
  have hRoom₁ : A.Room m₁ d (value.words + 1) :=
    hRoom.mono (by rw [Expr.words]; omega)
  obtain ⟨hHolds₂, hRoom₂⟩ :=
    Activation.holds_pushed hHolds₁ hRoom₁ (A.slot offset)
  have hStart :
      m.Reaches code (m₁.pushed (A.slot offset)) :=
    hAddress.trans (.instr hPush rfl (.refl _ _))
  have hValueRun :=
    hValueRuns hValue
      (m := m₁.pushed (A.slot offset)) hValueCode hHolds₂
      hRoom₂
  rw [Expr.eval]
  cases hValueEval : value.eval vars with
  | none =>
      rw [hValueEval] at hValueRun
      exact hStart.fails hValueRun
  | some result =>
      rcases result with ⟨v, vars₁⟩
      rw [hValueEval] at hValueRun
      rcases hValueRun with ⟨m₂, hSecond, hLeaves⟩
      have hStoreCode :
          CodeAt code m₂.pc
            [.instr (.pop .rdi),
             .instr (.store .rdi .rax)] := by
        rw [hLeaves.pc]
        exact ⟨hPop, hStore, trivial⟩
      rcases store_runs hStoreCode hContains hLeaves.rax
          hLeaves.holds hRoom₁ hLeaves.keeps with
        ⟨m', hLast, hPc, hRax, hHolds', hKeeps'⟩
      refine ⟨m', (hStart.trans hSecond).trans hLast, ?_,
        hRax, hHolds', hKeeps'.rsp, hKeeps'.bytes⟩
      rw [hPc, hLeaves.pc]
      show m.pc + 1 + 1 + _ + 2 = _
      simp only [List.length_append, List.length_map,
        List.length_cons, List.length_nil]
      omega

/- The code of every expression. -/
theorem code_runs
    (e : Expr) :
    e.CodeRuns A code := by
  induction e with
  | int value span =>
      intro k k' d ls m vars hEmits hCode hHolds _
      obtain ⟨rfl, rfl⟩ := Emitter.emits_instrs.mp hEmits
      obtain ⟨hMov, _⟩ := hCode
      refine ⟨_, .instr hMov rfl (.refl _ _), rfl, rfl, ?_,
        .of_memory_eq rfl rfl⟩
      exact hHolds.of_frame_eq rfl (fun _ _ _ => rfl)
  | var offset span =>
      intro k k' d ls m vars hEmits hCode hHolds _
      rw [Expr.code, Emitter.emits_append] at hEmits
      obtain ⟨_, _, _, hAddress, hLoad, rfl⟩ := hEmits
      obtain ⟨_, _, hVar, hContains, rfl, rfl⟩ :=
        emits_address.mp hAddress
      obtain ⟨rfl, rfl⟩ := Emitter.emits_instrs.mp hLoad
      obtain ⟨rfl, rfl⟩ := Expr.var.inj hVar
      obtain ⟨hLea, hRead, _⟩ := hCode
      refine ⟨_, .instr hLea rfl
        (.instr hRead rfl (.refl _ _)), rfl, ?_, ?_,
        .of_memory_eq rfl rfl⟩
      · have hSlot := hHolds.read offset hContains
        rw [Activation.slot, ← hHolds.base] at hSlot
        exact hSlot
      · exact hHolds.of_frame_eq rfl (fun _ _ _ => rfl)
  | binary op lhs rhs span ihLhs ihRhs =>
      exact binary_runs op span ihLhs ihRhs
  | assign target value span ihTarget ihValue =>
      exact assign_runs target span ihValue

end Expr

end WordLang
