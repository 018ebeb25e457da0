import WordLang.Proofs.CodePlaces
import WordLang.Proofs.CompilerCorrectness
import WordLang.Proofs.ShapeSteps

/-
  This file proves that a running routine keeps to its own
  part of the stack.

  At each line of the body of a routine, the machine fits
  the shape that was read off the code. Steps keep this,
  whether or not the run ever ends. So the registers always
  point to the frame, nothing of the caller is overwritten,
  and the body is left at the exit only.

  Key definitions include:
    * `WordLang.Charted`
    * `WordLang.Activation.Inside`
    * `WordLang.Program.depthAt`
    * `WordLang.Program.FrameSafe`

  Key theorems include:
    * `WordLang.Activation.Inside.step`
    * `WordLang.Activation.Inside.run`
    * `WordLang.Program.frameSafe_of_inside`
    * `WordLang.Program.generate_keeps_to_frame`
-/

namespace WordLang

------------------------------------------------------------
-- Runs Inside a Body
------------------------------------------------------------

/- The shape at a line, read from the first line on. -/
def Activation.shapeAt?
    (A : Activation)
    (code : List Line)
    (first pc : Nat) : Option Shape :=
  Shape.rest.scan? A.locals A.words
    ((code.take pc).drop first)

/-
  Every line from `first` up to `last` has a shape and is
  safe there, and all jumps and labels are among them.
-/
structure Charted
    (A : Activation)
    (code : List Line)
    (first last : Nat) : Prop where
  line :
    ∀ pc,
      first ≤ pc →
      pc < last →
      ∃ l a b,
        code[pc]? = some l ∧
        A.shapeAt? code first pc = some a ∧
        a.after? A.locals A.words l = some b ∧
        A.shapeAt? code first (pc + 1) = some b
  junction :
    ∀ pc l,
      code[pc]? = some l →
      l.isJunction = true →
      first ≤ pc ∧ pc < last

/- The lines between two others, by their number. -/
theorem drop_take_append
    (front lines back : List Line)
    {i : Nat}
    (hFits : i ≤ lines.length) :
    ((front ++ (lines ++ back)).take
        (front.length + i)).drop front.length =
      lines.take i := by
  rw [List.take_length_add_append, List.drop_left,
    List.take_append_of_le_length hFits]

/- Lines that can be read through are charted. -/
theorem charted_of_scan?
    {A : Activation}
    {front lines back : List Line}
    {s : Shape}
    (hScan :
      Shape.rest.scan? A.locals A.words lines = some s)
    (hFront :
      ∀ l ∈ front, l.isJunction = false)
    (hBack :
      ∀ l ∈ back, l.isJunction = false) :
    Charted A (front ++ (lines ++ back)) front.length
      (front.length + lines.length) := by
  constructor
  · intro pc hFrom hTo
    rcases Nat.exists_eq_add_of_le hFrom with ⟨i, rfl⟩
    have hLess : i < lines.length := by
      omega
    have hLine : lines[i]? = some lines[i] :=
      List.getElem?_eq_getElem hLess
    rcases Shape.scan?_take hScan hLine with
      ⟨a, b, hBefore, hAfter, hThrough⟩
    refine ⟨lines[i], a, b, ?_, ?_, hAfter, ?_⟩
    · rw [List.getElem?_append_right (by omega),
        Nat.add_sub_cancel_left,
        List.getElem?_append_left hLess, hLine]
    · rw [Activation.shapeAt?,
        drop_take_append _ _ _ (by omega), hBefore]
    · rw [Activation.shapeAt?, Nat.add_assoc,
        drop_take_append _ _ _ (by omega), hThrough]
  · intro pc l hLine hJunction
    by_contra hOutside
    have hMem : l ∈ front ∨ l ∈ back := by
      by_cases hFirst : pc < front.length
      · rw [List.getElem?_append_left hFirst] at hLine
        exact .inl (List.mem_of_getElem? hLine)
      · rw [List.getElem?_append_right (by omega),
          List.getElem?_append_right (by omega)] at hLine
        exact .inr (List.mem_of_getElem? hLine)
    rcases hMem with hMem | hMem
    · rw [hFront l hMem] at hJunction
      cases hJunction
    · rw [hBack l hMem] at hJunction
      cases hJunction

namespace Activation

variable {A : Activation}
variable {code : List Line}
variable {first last : Nat}
variable {m₁ m m' : Machine}

/-
  A machine that was in the state `m₁` is at a line that is
  charted. It fits the shape there, and all from the base of
  the frame on is as it was.
-/
structure Inside
    (A : Activation)
    (code : List Line)
    (first last : Nat)
    (m₁ m : Machine) : Prop where
  first_le : first ≤ m.pc
  le_last : m.pc ≤ last
  fits :
    ∃ s,
      A.shapeAt? code first m.pc = some s ∧ A.Fits s m
  above :
    ∀ x : Word,
      A.base.toNat ≤ x.toNat →
      m.memory x = m₁.memory x

/- A step at a charted line stays inside. -/
theorem Inside.step
    (hChart : Charted A code first last)
    (hInside : A.Inside code first last m₁ m)
    (hBefore : m.pc < last)
    (hStep : m.step code = .running m') :
    A.Inside code first last m₁ m' ∧
      (m'.pc = m.pc + 1 ∨ m'.pc < last) ∧
      ∃ l,
        code[m.pc]? = some l ∧
        m.WritesInside A.locals m' l := by
  rcases hChart.line m.pc hInside.first_le hBefore with
    ⟨l, a, b, hLine, hShape, hAfter, hNext⟩
  rcases hInside.fits with ⟨s, hShape', hFits⟩
  rw [hShape] at hShape'
  cases hShape'
  rcases hFits.step hLine hAfter hStep with
    ⟨hFits', hWrites⟩
  have hFirst := hInside.first_le
  have hAbove :
      ∀ x : Word,
        A.base.toNat ≤ x.toNat →
        m'.memory x = m₁.memory x := by
    intro x hBase
    have hRoom := A.room_le
    rw [← hInside.above x hBase]
    rw [← hFits.base] at hBase hRoom
    exact hWrites.above A.size_lt (by omega) hBase
  have hOnward
      (hPc : m'.pc = m.pc + 1) :
      A.Inside code first last m₁ m' := by
    rw [← hPc] at hNext
    exact ⟨by omega, by omega, ⟨b, hNext, hFits'⟩, hAbove⟩
  cases hJunction : l.isJunction with
  | false =>
      have hPc :=
        Machine.pc_of_step hLine hJunction hStep
      exact ⟨hOnward hPc, .inl hPc, l, hLine, hWrites⟩
  | true =>
      rcases Machine.step_junction hLine hJunction hStep with
        ⟨-, hPc | ⟨label, hLabel⟩⟩
      · exact ⟨hOnward hPc, .inl hPc, l, hLine, hWrites⟩
      · -- A label is for the shape that a jump leaves.
        rcases hChart.junction _ _ hLabel rfl with
          ⟨hFrom, hTo⟩
        rcases hChart.line m'.pc hFrom hTo with
          ⟨l', a', b', hLine', hShape', hAfter', -⟩
        rw [hLabel] at hLine'
        cases hLine'
        have hRest := Shape.eq_rest_of_label hAfter'
        have hLeft : b = .rest := by
          cases Shape.takes_of_after? hAfter with
          | junction _ => rfl
          | calculate hCalculates =>
              cases Instr.calculation_of_calculates
                hCalculates <;> cases hJunction
          | _ => cases hJunction
        rw [hLeft] at hFits'
        rw [hRest] at hShape'
        exact ⟨⟨hFrom, by omega, ⟨_, hShape', hFits'⟩,
          hAbove⟩, .inr hTo, l, hLine, hWrites⟩

/- A run from inside is inside until it has left for good. -/
theorem Inside.run
    (hChart : Charted A code first last)
    (hStart : A.Inside code first last m₁ m₁)
    {n : Nat}
    (hRun : m₁.run code n = .running m) :
    A.Inside code first last m₁ m ∨ last < m.pc := by
  induction n generalizing m with
  | zero =>
      cases hRun
      exact .inl hStart
  | succ n ih =>
      rcases Machine.step_of_run_succ hRun with
        ⟨m₂, hBefore, hStep⟩
      have hEarlier := ih hBefore
      by_cases hIn : m₂.pc < last
      · rcases hEarlier with hInside | hOut
        · exact .inl (hInside.step hChart hIn hStep).1
        · omega
      · -- From the last line on, a step goes to the next.
        cases hLine : code[m₂.pc]? with
        | none =>
            simp [Machine.step, hLine] at hStep
        | some l =>
            have hJunction : l.isJunction = false := by
              cases hCase : l.isJunction with
              | false => rfl
              | true =>
                  have hAmong :=
                    hChart.junction _ _ hLine hCase
                  omega
            have hPc :=
              Machine.pc_of_step hLine hJunction hStep
            omega

/- The lines before the chart are taken one by one. -/
theorem pc_of_run_front
    (hChart : Charted A code first last)
    (hPc : m.pc = 0)
    {n : Nat}
    (hFront : n ≤ first)
    (hRun : m.run code n = .running m') :
    m'.pc = n := by
  induction n generalizing m' with
  | zero =>
      cases hRun
      exact hPc
  | succ n ih =>
      rcases Machine.step_of_run_succ hRun with
        ⟨m₂, hBefore, hStep⟩
      have hPc₂ := ih (by omega) hBefore
      cases hLine : code[m₂.pc]? with
      | none =>
          simp [Machine.step, hLine] at hStep
      | some l =>
          have hJunction : l.isJunction = false := by
            cases hCase : l.isJunction with
            | false => rfl
            | true =>
                have hAmong :=
                  hChart.junction _ _ hLine hCase
                omega
          rw [Machine.pc_of_step hLine hJunction hStep, hPc₂]

/- A step at a charted line does not return. -/
theorem Inside.step_ne_returned
    (hChart : Charted A code first last)
    (hInside : A.Inside code first last m₁ m)
    (hBefore : m.pc < last) :
    m.step code ≠ .returned m' := by
  intro hStep
  rcases hChart.line m.pc hInside.first_le hBefore with
    ⟨l, a, b, hLine, -, hAfter, -⟩
  rw [Machine.line_of_returned hStep] at hLine
  cases hLine
  cases hAfter

end Activation

------------------------------------------------------------
-- Programs
------------------------------------------------------------

namespace Program

/-
  The number of words on the stack at a line of a routine,
  by the pushes and pops between the prologue and the line.
-/
def depthAt
    (p : Program)
    (pc : Nat) : Nat :=
  pushedBy
    ((p.lower.lines.take pc).drop (prologue p.locals).length)

/-
  A routine that was entered in the state `m`, and whose
  body ends before the line `exit`, is safe in the state
  `m'`: the registers point to its frame, what its caller
  has on the stack is as it was, the next step writes to a
  variable or below the frame, and from a line of the body
  it goes to another one or to the exit.
-/
structure FrameSafe
    (p : Program)
    (exit : Nat)
    (m m' : Machine) : Prop where
  rbp : m'.rbp = m.rsp - 8
  rsp :
    m'.rsp.toNat + (frameSize p.locals).toNat +
      8 * p.depthAt m'.pc = m'.rbp.toNat
  saved : m'.memory.read m'.rbp = m.rbp
  above :
    ∀ x : Word,
      m.rsp.toNat ≤ x.toNat → m'.memory x = m.memory x
  writes :
    ∀ m'',
      m'.step p.lower.lines = .running m'' →
      ∃ l,
        p.lower.lines[m'.pc]? = some l ∧
        m'.WritesInside p.locals m'' l
  kept :
    ∀ src m'',
      p.lower.lines[m'.pc]? = some (.instr (.push src)) →
      m'.step p.lower.lines = .running m'' →
      ∀ i,
        1 ≤ i →
        i ≤ p.locals.size →
        m''.memory.read
            (m'.rbp - BitVec.ofNat 64 (8 * i)) =
          m'.memory.read
            (m'.rbp - BitVec.ofNat 64 (8 * i))
  leaves :
    m'.pc < exit →
    m'.step p.lower.lines = .divideError ∨
      ∃ m'',
        m'.step p.lower.lines = .running m'' ∧
        (prologue p.locals).length ≤ m''.pc ∧
        m''.pc ≤ exit

variable {p : Program}
variable {m : Machine}

/- The frame is the least that is aligned and large enough. -/
theorem isLeast_frameSize
    (t : Locals)
    (hSize : t.size < 2 ^ 28) :
    IsLeast {n | 16 ∣ n ∧ 8 * t.size ≤ n}
      (frameSize t).toNat :=
  isLeast_frameSize_of_room t (by omega)

/- The lines before the first statement do not branch. -/
theorem isJunction_prologue
    (t : Locals)
    {l : Line}
    (hMem : l ∈ (prologue t).map Line.instr) :
    l.isJunction = false := by
  rcases List.mem_map.mp hMem with ⟨i, hInstr, rfl⟩
  rw [prologue, List.mem_append] at hInstr
  rcases hInstr with hFirst | hFrame
  · simp only [List.mem_cons, List.not_mem_nil,
      or_false] at hFirst
    rcases hFirst with rfl | rfl <;> rfl
  · by_cases hZero : frameSize t = 0
    · rw [if_pos hZero] at hFrame
      cases hFrame
    · rw [if_neg hZero, List.mem_singleton] at hFrame
      rw [hFrame]
      rfl

/- The code of a body and its exit is charted. -/
theorem charted_body
    {body : List Line}
    {k : Nat}
    (A : Activation)
    (hLocals : A.locals = p.locals)
    (hWords : A.words = Stmt.wordsAll p.body)
    (hBody :
      (Stmt.codeAll p.locals p.body).Emits 0 body k)
    (hLines :
      p.lower.lines =
        (prologue p.locals).map .instr ++
          (body ++ epilogue)) :
    Charted A p.lower.lines (prologue p.locals).length
      ((prologue p.locals).length + body.length + 1) := by
  have hScan :
      Shape.rest.scan? A.locals A.words
          (body ++ [.label .atExit]) =
        some .rest := by
    rw [hLocals, hWords]
    exact Shape.scan?_append_of
      (Stmt.scan?_codeAll hBody (Nat.le_refl _)) rfl
  have hBack :
      ∀ l ∈ epilogue.tail, l.isJunction = false := by
    decide
  have hChart :=
    charted_of_scan? hScan
      (fun l => isJunction_prologue p.locals) hBack
  have hAll :
      (prologue p.locals).map Line.instr ++
          ((body ++ [.label .atExit]) ++ epilogue.tail) =
        p.lower.lines := by
    rw [hLines, List.append_assoc]
    rfl
  rw [hAll, List.length_map, List.length_append,
    List.length_singleton, ← Nat.add_assoc] at hChart
  exact hChart

/- The words on the stack where a line of the body stands. -/
theorem depthAt_eq
    {body before after : List Line}
    (hLines :
      p.lower.lines =
        (prologue p.locals).map .instr ++
          (body ++ epilogue))
    (hBody : body = before ++ after) :
    p.depthAt
        ((prologue p.locals).length + before.length) =
      pushedBy before := by
  have hFits : before.length ≤ body.length := by
    rw [hBody, List.length_append]
    omega
  have hDrop :=
    drop_take_append ((prologue p.locals).map .instr) body
      epilogue hFits
  rw [List.length_map] at hDrop
  rw [depthAt, hLines, hDrop, hBody, List.take_left]

/- Nothing is on the stack where a statement starts or ends. -/
theorem Places.depthAt_eq_zero
    {body : List Line}
    {s : Stmt}
    {k kEnd pc : Nat}
    (hBody :
      (Stmt.codeAll p.locals p.body).Emits 0 body kEnd)
    (hLines :
      p.lower.lines =
        (prologue p.locals).map .instr ++
          (body ++ epilogue))
    (hPlaces : p.Places s k pc) :
    ∃ ls k',
      (s.code p.locals).Emits k ls k' ∧
      CodeAt p.lower.lines pc ls ∧
      p.depthAt pc = 0 ∧
      p.depthAt (pc + ls.length) = 0 := by
  rcases hPlaces.stands hBody with ⟨i, rfl, hStands⟩
  rcases hStands.pushedBy_eq_zero with
    ⟨before, ls, after, k', hSplit, rfl, hEmits, hStart,
      hEnd⟩
  refine ⟨ls, k', hEmits, ?_, ?_, ?_⟩
  · have hAt :=
      CodeAt.of_append
        ((prologue p.locals).map .instr ++ before) ls
        (after ++ epilogue)
    rw [List.length_append, List.length_map] at hAt
    rw [hLines, hSplit]
    simpa only [List.append_assoc] using hAt
  · rw [depthAt_eq hLines hSplit, hStart]
  · rw [← List.append_assoc] at hSplit
    rw [Nat.add_assoc, ← List.length_append,
      depthAt_eq hLines hSplit, hEnd]

/- Nothing is on the stack at a label. -/
theorem depthAt_label
    {A : Activation}
    {last pc : Nat}
    {l : Label}
    (hChart :
      Charted A p.lower.lines (prologue p.locals).length
        last)
    (hLabel : p.lower.lines[pc]? = some (.label l)) :
    p.depthAt pc = 0 := by
  rcases hChart.junction pc _ hLabel rfl with ⟨hFrom, hTo⟩
  rcases hChart.line pc hFrom hTo with
    ⟨l', a, b, hLine, hShape, hAfter, -⟩
  rw [hLabel] at hLine
  cases hLine
  rw [Shape.eq_rest_of_label hAfter] at hShape
  exact (Shape.length_stack_eq_pushedBy hShape).symm

/-
  A machine inside the body, at a line of it or at the exit
  from it, is safe.
-/
theorem frameSafe_of_inside
    {A : Activation}
    {exit : Nat}
    {m₁ m' : Machine}
    (hBase : A.base = m.rsp - 8)
    (hLocals : A.locals = p.locals)
    (hChart :
      Charted A p.lower.lines (prologue p.locals).length
        (exit + 1))
    (hExit :
      p.lower.lines[exit + 1]? =
        some (.instr (.mov .rsp .rbp)))
    (hEntered : Entered A m m₁)
    (hInside :
      A.Inside p.lower.lines (prologue p.locals).length
        (exit + 1) m₁ m')
    (hStuck : m'.step p.lower.lines ≠ .stuck) :
    p.FrameSafe exit m m' := by
  have hTop := A.base_lt
  have hStack : A.base.toNat + 8 = m.rsp.toNat := by
    rw [hBase] at hTop ⊢
    bv_omega
  rcases hInside.fits with ⟨s, hShape, hFits⟩
  have hWrites
      (m'' : Machine)
      (hStep : m'.step p.lower.lines = .running m'') :
      ∃ l,
        p.lower.lines[m'.pc]? = some l ∧
        m'.WritesInside p.locals m'' l := by
    by_cases hLast : m'.pc < exit + 1
    · rcases hInside.step hChart hLast hStep with
        ⟨-, -, hWrites⟩
      rw [← hLocals]
      exact hWrites
    · -- The stack is given back without writing to it.
      have hPc : m'.pc = exit + 1 := by
        have hLe := hInside.le_last
        omega
      rw [← hPc] at hExit
      rw [Machine.step_instr hExit] at hStep
      cases hStep
      exact ⟨_, hExit, rfl⟩
  refine ⟨by rw [hFits.base, hBase], ?_, ?_, ?_, hWrites,
    ?_, ?_⟩
  · have hDepth : s.stack.length = p.depthAt m'.pc :=
      Shape.length_stack_eq_pushedBy hShape
    have hRsp := hFits.rsp
    have hFrame := A.bottom_add
    rw [hLocals] at hFrame
    rw [hFits.base, ← hDepth]
    omega
  · rw [hFits.base, ← hEntered.saved]
    apply Memory.read_congr (by omega)
    intro x hFrom _
    exact hInside.above x hFrom
  · intro x hAbove
    rw [hInside.above x (by omega), hEntered.memory x hAbove]
  · intro src m'' hPush hStep i hLeast hMost
    rcases hWrites m'' hStep with ⟨l, hLine, hWrite⟩
    rw [hPush] at hLine
    cases hLine
    have hSize := A.size_lt
    rw [hLocals] at hSize
    exact hWrite.push_apart hSize hLeast hMost
  · intro hBefore
    cases hStep : m'.step p.lower.lines with
    | running m'' =>
        rcases hInside.step hChart (by omega) hStep with
          ⟨hNext, hPc, -⟩
        have hFirst := hNext.first_le
        exact .inr ⟨m'', rfl, hFirst, by omega⟩
    | returned m'' =>
        exact absurd hStep
          (hInside.step_ne_returned hChart (by omega))
    | divideError =>
        exact .inl rfl
    | stuck =>
        exact absurd hStep hStuck

/-
  The text written for a program keeps to its frame. The
  words on the stack at a line are counted off the code, and
  there are none at a label or around a statement. In every
  state that a run comes to between the prologue and the end
  of the frame, the routine is safe. The code is read from
  the text unless its frame has no encoding, and also then
  no run of it would leave the frame.
-/
theorem generate_keeps_to_frame
    {target : Target}
    {text : String}
    (hName : p.name = mainName)
    (hText : p.generate target = .ok text)
    (hLocals : p.locals.size < 2 ^ 28)
    (hControls : p.controls < 2 ^ 28)
    (hStack : p.stackBytes ≤ m.rsp.toNat)
    (hPc : m.pc = 0) :
    text = Assembly.text target p.name p.lower.lines ∧
      Assembly.read? target p.name text =
        (if p.locals.size < 2 ^ 28 - 1 then
          some p.lower.lines
        else
          none) ∧
      IsLeast {n | 16 ∣ n ∧ 8 * p.locals.size ≤ n}
        (frameSize p.locals).toNat ∧
      (∀ pc l,
        p.lower.lines[pc]? = some (.label l) →
        p.depthAt pc = 0) ∧
      (∀ s ∈ Stmt.partsAll p.body,
        ∃ k pc, p.Places s k pc) ∧
      (∀ s k pc,
        p.Places s k pc →
        ∃ ls k',
          (s.code p.locals).Emits k ls k' ∧
          CodeAt p.lower.lines pc ls ∧
          p.depthAt pc = 0 ∧
          p.depthAt (pc + ls.length) = 0) ∧
      ∃ body,
        p.lower.lines =
          (prologue p.locals).map .instr ++
            (body ++ epilogue) ∧
        ∀ n m',
          m.run p.lower.lines n = .running m' →
          (prologue p.locals).length ≤ m'.pc →
          m'.pc ≤
            (prologue p.locals).length + body.length + 1 →
          p.FrameSafe
            ((prologue p.locals).length + body.length)
            m m' := by
  rcases lower_of_generate hText with ⟨hFault, rfl⟩
  rcases emits_lower hFault with ⟨body, hBody, hLines⟩
  let A := p.activation m hLocals hStack
  have hChart :=
    charted_body A rfl rfl hBody hLines
  have hCode : CodeAt p.lower.lines 0 p.lower.lines := by
    simpa using CodeAt.of_append [] p.lower.lines []
  nth_rewrite 2 [hLines] at hCode
  rw [CodeAt.append_iff, CodeAt.append_iff, Nat.zero_add,
    List.length_map] at hCode
  rcases hCode with ⟨hPrologue, -, -, hExit, -⟩
  rcases prologue_runs hLocals hStack hPc hPrologue with
    ⟨m₁, hEntry, hPc₁, hEntered⟩
  have hStart :
      A.Inside p.lower.lines (prologue p.locals).length
        ((prologue p.locals).length + body.length + 1)
        m₁ m₁ := by
    refine ⟨by omega, by omega, ⟨.rest, ?_, ?_⟩,
      fun _ _ => rfl⟩
    · rw [hPc₁, Activation.shapeAt?,
        List.drop_eq_nil_of_le (List.length_take_le _ _)]
      rfl
    · exact ⟨hEntered.holds.base, hEntered.rsp, trivial,
        trivial, trivial⟩
  have hRealises (bound : Nat) :
      Realises p.lower.lines bound m
        (p.eval bound m.entryEnv) :=
    lower_realises hFault hLocals (by omega) hStack hPc bound
  refine ⟨rfl,
    read?_text_lower target hName hFault hLocals,
    isLeast_frameSize p.locals hLocals,
    fun pc l => depthAt_label hChart,
    fun s => exists_places hBody,
    fun s k pc => Places.depthAt_eq_zero hBody hLines,
    body, hLines, ?_⟩
  intro n m' hRun hFrom hTo
  have hPast : (prologue p.locals).length ≤ n := by
    by_contra hEarly
    have hPc' :=
      Activation.pc_of_run_front hChart hPc
        (Nat.le_of_not_le hEarly) hRun
    omega
  have hLater :
      m₁.run p.lower.lines
          (n - (prologue p.locals).length) =
        .running m' := by
    rw [← Machine.run_add hEntry,
      Nat.add_sub_cancel' hPast]
    exact hRun
  have hInside :
      A.Inside p.lower.lines (prologue p.locals).length
        ((prologue p.locals).length + body.length + 1)
        m₁ m' := by
    rcases hStart.run hChart hLater with hIn | hOut
    · exact hIn
    · omega
  have hStuck : m'.step p.lower.lines ≠ .stuck := by
    rw [← Machine.run_succ hRun]
    exact run_ne_stuck hRealises (n + 1)
  exact frameSafe_of_inside rfl rfl hChart hExit hEntered
    hInside hStuck

/-
  The program that counts is safe while the left operand of
  its comparison waits on the stack.
-/
theorem counting_keeps_to_frame :
    counting.stackBytes ≤ 4096 ∧
      counting.depthAt 7 = 1 ∧
      ∃ exit m',
        (entered 4096 fun _ => 0).run
            counting.lower.lines 7 =
          .running m' ∧
        m'.pc = 7 ∧
        counting.FrameSafe exit (entered 4096 fun _ => 0)
          m' := by
  have hText :
      counting.generate .linux =
        .ok
          (Assembly.text .linux counting.name
            counting.lower.lines) := by
    rfl
  have hStack : counting.stackBytes ≤ 4096 := by
    decide
  have hReached :
      ∃ m',
        (entered 4096 fun _ => 0).run
            counting.lower.lines 7 =
          .running m' ∧
        m'.pc = 7 :=
    ⟨_, rfl, rfl⟩
  rcases hReached with ⟨m', hRun, hPc⟩
  rcases generate_keeps_to_frame
      (m := entered 4096 fun _ => 0) rfl hText (by decide)
      (by decide) hStack rfl with
    ⟨-, -, -, -, -, -, body, hLines, hSafe⟩
  have hLength :
      counting.lower.lines.length = 3 + (body.length + 4) := by
    rw [hLines, List.length_append, List.length_append]
    rfl
  have hLong : 11 ≤ counting.lower.lines.length := by
    decide
  have hFrom : (prologue counting.locals).length ≤ m'.pc := by
    show 3 ≤ m'.pc
    omega
  have hTo :
      m'.pc ≤
        (prologue counting.locals).length + body.length +
          1 := by
    show m'.pc ≤ 3 + body.length + 1
    omega
  exact ⟨hStack, rfl, _, m', hRun, hPc,
    hSafe 7 m' hRun hFrom hTo⟩

end Program

end WordLang
