import WordLang.Proofs.ProgramCode
import WordLang.Proofs.StackShape

/-
  This file runs the lines of a routine that have a shape.

  A machine fits a shape when its base register points to
  the frame, the stack ends as many words below the frame as
  the shape has, and what the shape calls the address of a
  variable is one. A step at a line leads from a machine of
  the shape before the line to one of the shape after it. It
  writes to memory only where the line may: a store changes
  a variable, a push changes a word below the frame, and
  nothing else writes.

  Key definitions include:
    * `WordLang.Tag.Describes`
    * `WordLang.Activation.Stacked`
    * `WordLang.Activation.Fits`
    * `WordLang.Machine.WritesInside`

  Key theorems include:
    * `WordLang.Machine.step_junction`
    * `WordLang.Machine.pc_of_step`
    * `WordLang.Activation.Fits.step`
    * `WordLang.Machine.WritesInside.above`
-/

namespace WordLang

------------------------------------------------------------
-- Where a Step Leads
------------------------------------------------------------

namespace Machine

variable {code : List Line}
variable {m m' : Machine}

/- Setting a register does not move the machine. -/
theorem pc_set
    (m : Machine)
    (r : Reg)
    (v : Word) :
    (m.set r v).pc = m.pc := by
  cases r <;> rfl

/- A jump changes the position only, to that of a label. -/
theorem jump_eq_running
    {target : Label}
    (hJump : m.jump code target = .running m') :
    code[m'.pc]? = some (.label target) ∧
      m' = { m with pc := m'.pc } := by
  unfold jump at hJump
  split at hJump
  · rename_i i hIndex
    cases hJump
    rcases List.idxOf?_eq_some_iff.mp hIndex with
      ⟨hLess, hLabel, -⟩
    exact ⟨List.getElem?_eq_some_iff.mpr ⟨hLess, hLabel⟩,
      rfl⟩
  · cases hJump

/-
  A step at a junction leaves all but the position as it
  was. It leads to the next line or to a label.
-/
theorem step_junction
    {l : Line}
    (hLine : code[m.pc]? = some l)
    (hJunction : l.isJunction = true)
    (hStep : m.step code = .running m') :
    m' = { m with pc := m'.pc } ∧
      (m'.pc = m.pc + 1 ∨
        ∃ label, code[m'.pc]? = some (.label label)) := by
  cases l with
  | label label =>
      rw [step_label hLine] at hStep
      cases hStep
      exact ⟨rfl, .inl rfl⟩
  | instr i =>
      rw [step_instr hLine] at hStep
      cases i with
      | jmp target =>
          rcases jump_eq_running hStep with ⟨hLabel, hSame⟩
          exact ⟨hSame, .inr ⟨target, hLabel⟩⟩
      | je target =>
          rw [exec] at hStep
          split at hStep
          · split at hStep
            · rcases jump_eq_running hStep with
                ⟨hLabel, hSame⟩
              exact ⟨hSame, .inr ⟨target, hLabel⟩⟩
            · cases hStep
              exact ⟨rfl, .inl rfl⟩
          · cases hStep
      | _ =>
          cases hJunction

/- Any other step leads to the next line. -/
theorem pc_of_step
    {l : Line}
    (hLine : code[m.pc]? = some l)
    (hJunction : l.isJunction = false)
    (hStep : m.step code = .running m') :
    m'.pc = m.pc + 1 := by
  cases l with
  | label label =>
      cases hJunction
  | instr i =>
      rw [step_instr hLine] at hStep
      cases i with
      | jmp _ | je _ =>
          cases hJunction
      | ret =>
          cases hStep
      | idiv _ | setcc _ =>
          rw [exec] at hStep
          split at hStep
          · cases hStep
            rfl
          · cases hStep
      | push _ | store _ _ | cqo | cmp _ _ | cmpZero _
      | movzx =>
          cases hStep
          rfl
      | _ =>
          cases hStep
          exact pc_set _ _ _

/- A calculation changes neither stack nor memory. -/
theorem step_calculates
    {i : Instr}
    (hLine : code[m.pc]? = some (.instr i))
    (hCalculates : i.calculates = true)
    (hStep : m.step code = .running m') :
    m'.rdi = m.rdi ∧
      m'.rsp = m.rsp ∧
      m'.rbp = m.rbp ∧
      m'.memory = m.memory := by
  rw [step_instr hLine] at hStep
  cases Instr.calculation_of_calculates hCalculates with
  | idiv src | setcc cond =>
      rw [exec] at hStep
      split at hStep
      · cases hStep
        exact ⟨rfl, rfl, rfl, rfl⟩
      · cases hStep
  | _ =>
      cases hStep
      exact ⟨rfl, rfl, rfl, rfl⟩

/- A routine returns at `ret` only. -/
theorem line_of_returned
    (hStep : m.step code = .returned m') :
    code[m.pc]? = some (.instr .ret) := by
  cases hLine : code[m.pc]? with
  | none =>
      simp [step, hLine] at hStep
  | some l =>
      cases l with
      | label label =>
          rw [step_label hLine] at hStep
          cases hStep
      | instr i =>
          rw [step_instr hLine] at hStep
          cases i with
          | ret =>
              rfl
          | jmp target =>
              rw [exec, jump] at hStep
              split at hStep <;> cases hStep
          | je target =>
              rw [exec] at hStep
              split at hStep
              · split at hStep
                · rw [jump] at hStep
                  split at hStep <;> cases hStep
                · cases hStep
              · cases hStep
          | idiv _ | setcc _ =>
              rw [exec] at hStep
              split at hStep <;> cases hStep
          | _ =>
              cases hStep

/- A run takes a step more. -/
theorem run_succ
    {n : Nat}
    (hRun : m.run code n = .running m') :
    m.run code (n + 1) = m'.step code := by
  rw [run_add hRun, run]
  cases m'.step code <;> rfl

/- A run that still goes on has taken its last step. -/
theorem step_of_run_succ
    {n : Nat}
    (hRun : m.run code (n + 1) = .running m') :
    ∃ m₁,
      m.run code n = .running m₁ ∧
      m₁.step code = .running m' := by
  rcases RunsFor.mono ⟨m', hRun⟩ (Nat.le_succ n) with
    ⟨m₁, hBefore⟩
  rw [run_succ hBefore] at hRun
  exact ⟨m₁, hBefore, hRun⟩

end Machine

------------------------------------------------------------
-- Machines of a Shape
------------------------------------------------------------

/- What a tag says of a word. -/
def Tag.Describes
    (A : Activation)
    (v : Word) :
    Tag → Prop
| value => True
| address o => v = A.slot o

namespace Activation

variable {A : Activation}
variable {m m' : Machine}

/- Tags describe the words from an address up. -/
def Stacked
    (A : Activation)
    (memory : Memory) :
    Word →
    List Tag →
    Prop
| _, [] => True
| a, tag :: tags =>
    tag.Describes A (memory.read a) ∧
      Stacked A memory (a + 8) tags

/- Only the words themselves matter. -/
theorem Stacked.congr
    {memory memory' : Memory}
    {a : Word}
    {tags : List Tag}
    (hStacked : A.Stacked memory a tags)
    (hFits : a.toNat + 8 * tags.length ≤ A.bottom)
    (hBytes :
      ∀ x : Word,
        a.toNat ≤ x.toNat →
        x.toNat < A.bottom →
        memory' x = memory x) :
    A.Stacked memory' a tags := by
  induction tags generalizing a with
  | nil =>
      trivial
  | cons tag tags ih =>
      rw [List.length_cons] at hFits
      have hBase := A.base_lt
      have hBottom : A.bottom ≤ A.base.toNat := by
        unfold bottom
        omega
      have hNext : (a + 8).toNat = a.toNat + 8 := by
        bv_omega
      refine ⟨?_, ih hStacked.2 (by omega) ?_⟩
      · have hSame : memory'.read a = memory.read a := by
          apply Memory.read_congr (by omega)
          intro x hFrom hTo
          exact hBytes x hFrom (by omega)
        rw [hSame]
        exact hStacked.1
      · intro x hFrom hTo
        exact hBytes x (by omega) hTo

/- The machine is as a shape says. -/
structure Fits
    (A : Activation)
    (s : Shape)
    (m : Machine) : Prop where
  base : m.rbp = A.base
  rsp : m.rsp.toNat + 8 * s.stack.length = A.bottom
  stacked : A.Stacked m.memory m.rsp s.stack
  rax : s.rax.Describes A m.rax
  rdi : s.rdi.Describes A m.rdi

end Activation

namespace Machine

/-
  What the line of a step may do to memory. A store writes
  the word of a variable, and a push writes a word below
  the frame.
-/
def WritesInside
    (t : Locals)
    (m m' : Machine) :
    Line → Prop
| .instr (.store _ src) =>
    ∃ i,
      1 ≤ i ∧
      i ≤ t.size ∧
      m'.memory =
        m.memory.write (m.rbp - BitVec.ofNat 64 (8 * i))
          (m.get src)
| .instr (.push src) =>
    (m.rsp - 8).toNat + 8 + (Program.frameSize t).toNat ≤
        m.rbp.toNat ∧
      m'.memory = m.memory.write (m.rsp - 8) (m.get src)
| _ => m'.memory = m.memory

/- Lines that write nothing. -/
theorem writesInside_of_memory_eq
    {t : Locals}
    {m m' : Machine}
    {l : Line}
    (hLine :
      l.isJunction = true ∨
        ∃ i, l = .instr i ∧ i.calculates = true)
    (hMemory : m'.memory = m.memory) :
    m.WritesInside t m' l := by
  rcases hLine with hJunction | ⟨i, rfl, hCalculates⟩
  · unfold Line.isJunction at hJunction
    split at hJunction <;>
      first | exact hMemory | cases hJunction
  · cases Instr.calculation_of_calculates hCalculates <;>
      exact hMemory

end Machine

namespace Activation

variable {A : Activation}
variable {code : List Line}
variable {m m' : Machine}
variable {s s' : Shape}

/- The bottom of the frame is below its base. -/
theorem bottom_add
    (A : Activation) :
    A.bottom + (Program.frameSize A.locals).toNat =
      A.base.toNat := by
  have hRoom := A.room_le
  unfold bottom
  omega

/- Junctions move the machine only. -/
theorem Fits.moved
    (hFits : A.Fits s m)
    (hSame : m' = { m with pc := m'.pc }) :
    A.Fits s m' := by
  rw [hSame]
  exact ⟨hFits.base, hFits.rsp, hFits.stacked, hFits.rax,
    hFits.rdi⟩

/- A push where there is room. -/
theorem Fits.push
    (hFits : A.Fits s m)
    (hRoom : s.stack.length < A.words) :
    A.Fits { s with stack := s.rax :: s.stack }
        (m.pushed m.rax) ∧
      m.WritesInside A.locals (m.pushed m.rax)
        (.instr (.push .rax)) := by
  have hSpace : A.Room m s.stack.length (0 + 1) :=
    ⟨hFits.rsp, hRoom⟩
  rcases hSpace.rsp_bounds with ⟨hRsp, hBottom, -⟩
  have hFrame := A.bottom_add
  have hBack : m.rsp - 8 + 8 = m.rsp := by
    bv_omega
  refine ⟨⟨hFits.base, ?_, ⟨?_, ?_⟩, hFits.rax, hFits.rdi⟩,
    ?_, rfl⟩
  · show (m.rsp - 8).toNat + 8 * (s.stack.length + 1) = _
    have hDepth := hFits.rsp
    omega
  · show s.rax.Describes A
      ((m.memory.write (m.rsp - 8) m.rax).read (m.rsp - 8))
    rw [Memory.read_write]
    exact hFits.rax
  · show A.Stacked _ (m.rsp - 8 + 8) s.stack
    rw [hBack]
    apply hFits.stacked.congr (Nat.le_of_eq hFits.rsp)
    intro x hFrom _
    exact pushed_memory hSpace m.rax hFrom
  · rw [hFits.base]
    omega

/- A word that is taken off is what its tag says. -/
theorem Fits.pop
    {tag : Tag}
    {stack : List Tag}
    {rax rdi : Tag}
    (hFits : A.Fits ⟨tag :: stack, rax, rdi⟩ m) :
    tag.Describes A (m.memory.read m.rsp) ∧
      (m.rsp + 8).toNat + 8 * stack.length = A.bottom ∧
      A.Stacked m.memory (m.rsp + 8) stack := by
  rcases hFits.stacked with ⟨hWord, hRest⟩
  refine ⟨hWord, ?_, hRest⟩
  have hDepth :
      m.rsp.toNat + 8 * (stack.length + 1) = A.bottom :=
    hFits.rsp
  have hFrame := A.bottom_add
  have hBase := A.base_lt
  bv_omega

/- A store to a variable. -/
theorem Fits.store
    {stack : List Tag}
    {rax : Tag}
    {o : Offset}
    (hFits : A.Fits ⟨stack, rax, .address o⟩ m)
    (hContains : A.locals.contains o = true)
    (hSame :
      m' =
        { m with
          pc := m'.pc
          memory := m.memory.write m.rdi m.rax }) :
    A.Fits ⟨stack, rax, .value⟩ m' ∧
      m.WritesInside A.locals m'
        (.instr (.store .rdi .rax)) := by
  have hAddress : m.rdi = A.slot o := hFits.rdi
  rcases A.slot_bounds hContains with ⟨-, hLow, hHigh⟩
  rcases (Locals.contains_iff A.locals o).mp hContains with
    ⟨hWord, hLeast, hMost⟩
  have hBase := A.base_lt
  have hFrame := A.bottom_add
  rw [hSame]
  refine ⟨⟨hFits.base, hFits.rsp, ?_, hFits.rax, trivial⟩,
    o.bytes.toNat / 8, by omega, by omega, ?_⟩
  · apply hFits.stacked.congr (Nat.le_of_eq hFits.rsp)
    intro x _ hTo
    apply Memory.write_apart
    · rw [hAddress]
      omega
    · rw [hAddress]
      omega
  · have hBytes : 8 * (o.bytes.toNat / 8) = o.bytes.toNat := by
      omega
    rw [hBytes, hAddress, hFits.base]
    rfl

/-
  A step at a line that is safe leads from one shape to the
  other, and writes to memory only what the line may write.
-/
theorem Fits.step
    {l : Line}
    (hFits : A.Fits s m)
    (hLine : code[m.pc]? = some l)
    (hAfter : s.after? A.locals A.words l = some s')
    (hStep : m.step code = .running m') :
    A.Fits s' m' ∧ m.WritesInside A.locals m' l := by
  cases Shape.takes_of_after? hAfter with
  | junction hJunction =>
      rcases Machine.step_junction hLine hJunction hStep with
        ⟨hSame, -⟩
      refine ⟨hFits.moved hSame, ?_⟩
      apply Machine.writesInside_of_memory_eq (.inl hJunction)
      rw [hSame]
  | push hRoom =>
      rw [Machine.step_instr hLine] at hStep
      cases hStep
      exact hFits.push hRoom
  | popRax =>
      rw [Machine.step_instr hLine] at hStep
      cases hStep
      rcases hFits.pop with ⟨hWord, hRsp, hStacked⟩
      exact ⟨⟨hFits.base, hRsp, hStacked, hWord, hFits.rdi⟩,
        rfl⟩
  | popRdi =>
      rw [Machine.step_instr hLine] at hStep
      cases hStep
      rcases hFits.pop with ⟨hWord, hRsp, hStacked⟩
      exact ⟨⟨hFits.base, hRsp, hStacked, hFits.rax, hWord⟩,
        rfl⟩
  | move =>
      rw [Machine.step_instr hLine] at hStep
      cases hStep
      exact ⟨⟨hFits.base, hFits.rsp, hFits.stacked,
        hFits.rax, hFits.rax⟩, rfl⟩
  | @address _ o =>
      rw [Machine.step_instr hLine] at hStep
      cases hStep
      refine ⟨⟨hFits.base, hFits.rsp, hFits.stacked, ?_,
        hFits.rdi⟩, rfl⟩
      show m.rbp - BitVec.ofNat 64 o.bytes.toNat = A.slot o
      rw [hFits.base]
      rfl
  | store hContains =>
      rw [Machine.step_instr hLine] at hStep
      cases hStep
      exact hFits.store hContains rfl
  | calculate hCalculates =>
      rcases Machine.step_calculates hLine hCalculates hStep
        with ⟨hRdi, hRsp, hRbp, hMemory⟩
      refine ⟨⟨by rw [hRbp]; exact hFits.base,
        by rw [hRsp]; exact hFits.rsp,
        by rw [hMemory, hRsp]; exact hFits.stacked, trivial,
        by rw [hRdi]; exact hFits.rdi⟩, ?_⟩
      exact Machine.writesInside_of_memory_eq
        (.inr ⟨_, rfl, hCalculates⟩) hMemory

end Activation

------------------------------------------------------------
-- What a Step Leaves Alone
------------------------------------------------------------

namespace Machine

variable {t : Locals}
variable {m m' : Machine}
variable {l : Line}

/- Nothing from the base of the frame on is written. -/
theorem WritesInside.above
    (hWrites : m.WritesInside t m' l)
    (hSize : t.size < 2 ^ 28)
    (hRoom :
      (Program.frameSize t).toNat ≤ m.rbp.toNat)
    {x : Word}
    (hAbove : m.rbp.toNat ≤ x.toNat) :
    m'.memory x = m.memory x := by
  have hHolds := Program.bytes_le_frameSize t hSize
  unfold WritesInside at hWrites
  split at hWrites
  · rcases hWrites with ⟨i, hLeast, hMost, hMemory⟩
    have hSlot :
        (m.rbp - BitVec.ofNat 64 (8 * i)).toNat + 8 * i =
          m.rbp.toNat := by
      bv_omega
    have hTop := m.rbp.isLt
    rw [hMemory]
    exact Memory.write_apart _ _ (by omega) (by omega)
  · rcases hWrites with ⟨hBelow, hMemory⟩
    have hTop := m.rbp.isLt
    rw [hMemory]
    exact Memory.write_apart _ _ (by omega) (by omega)
  · rw [hWrites]

/- A push writes no variable. -/
theorem WritesInside.push_apart
    {src : Reg}
    (hWrites : m.WritesInside t m' (.instr (.push src)))
    (hSize : t.size < 2 ^ 28)
    {i : Nat}
    (hLeast : 1 ≤ i)
    (hMost : i ≤ t.size) :
    m'.memory.read (m.rbp - BitVec.ofNat 64 (8 * i)) =
      m.memory.read (m.rbp - BitVec.ofNat 64 (8 * i)) := by
  rcases hWrites with ⟨hBelow, hMemory⟩
  have hHolds := Program.bytes_le_frameSize t hSize
  have hTop := m.rbp.isLt
  have hSlot :
      (m.rbp - BitVec.ofNat 64 (8 * i)).toNat + 8 * i =
        m.rbp.toNat := by
    bv_omega
  apply Memory.read_congr (by omega)
  intro x hFrom _
  rw [hMemory]
  exact Memory.write_apart _ _ (by omega) (by omega)

end Machine

end WordLang
