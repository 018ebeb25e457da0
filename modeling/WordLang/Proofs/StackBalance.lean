import WordLang.Proofs.DepthCounter
import WordLang.Proofs.StackShape

/-
  This file proves that pushes and pops are balanced.

  In the code of an expression each push of `rax` has its
  pop, and the pop comes later. In the code of a statement
  nothing is left on the stack at a label or a jump, so the
  lines from one of these to the next are balanced by
  themselves. The count that the emission keeps beside the
  code does not fall below where it started, comes back to
  it, and is zero at the end of every statement.

  Key definitions include:
    * `WordLang.StackBalanced`
    * `WordLang.StackLevel`
    * `WordLang.IsStretch`

  Key theorems include:
    * `WordLang.Expr.balances_code`
    * `WordLang.Stmt.levels_code`
    * `WordLang.StackLevel.balanced_of_isStretch`
    * `WordLang.stack_counter_is_balanced`
-/

namespace WordLang

------------------------------------------------------------
-- Balanced Lines
------------------------------------------------------------

/- The number of lines that push `rax`. -/
def pushes
    (ls : List Line) : Nat :=
  ls.count (.instr (.push .rax))

/- The number of lines that pop. -/
def pops
    (ls : List Line) : Nat :=
  ls.countP Line.isPop

theorem pushes_append
    (ls ls' : List Line) :
    pushes (ls ++ ls') = pushes ls + pushes ls' :=
  List.count_append

theorem pops_append
    (ls ls' : List Line) :
    pops (ls ++ ls') = pops ls + pops ls' :=
  List.countP_append

/- Lines that leave the stack alone neither push nor pop. -/
theorem pushes_eq_zero
    {ls : List Line}
    (hNeutral : ∀ l ∈ ls, l.isNeutral = true) :
    pushes ls = 0 := by
  apply List.count_eq_zero_of_not_mem
  intro hMem
  cases hNeutral _ hMem

theorem pops_eq_zero
    {ls : List Line}
    (hNeutral : ∀ l ∈ ls, l.isNeutral = true) :
    pops ls = 0 := by
  apply List.countP_eq_zero.mpr
  intro l hMem hPop
  have hLine := hNeutral l hMem
  unfold Line.isPop at hPop
  split at hPop
  · cases hLine
  · cases hPop

/- Labels and jumps leave the stack alone. -/
theorem Line.isNeutral_of_isJunction
    {l : Line}
    (hJunction : l.isJunction = true) :
    l.isNeutral = true := by
  unfold isJunction at hJunction
  unfold isNeutral
  grind

/-
  There are as many pushes as pops, and never more pops than
  pushes so far.
-/
structure StackBalanced
    (ls : List Line) : Prop where
  even : pushes ls = pops ls
  above : ∀ i, pops (ls.take i) ≤ pushes (ls.take i)

namespace StackBalanced

variable {ls ls' : List Line}

theorem append
    (hFirst : StackBalanced ls)
    (hSecond : StackBalanced ls') :
    StackBalanced (ls ++ ls') := by
  constructor
  · rw [pushes_append, pops_append, hFirst.even,
      hSecond.even]
  · intro i
    have hBefore := hFirst.above i
    have hAfter := hSecond.above (i - ls.length)
    rw [List.take_append, pushes_append, pops_append]
    omega

theorem of_isNeutral
    (hNeutral : ls.all Line.isNeutral = true) :
    StackBalanced ls := by
  rw [List.all_eq_true] at hNeutral
  constructor
  · rw [pushes_eq_zero hNeutral, pops_eq_zero hNeutral]
  · intro i
    rw [pops_eq_zero
      (fun l hMem => hNeutral l (List.mem_of_mem_take hMem))]
    exact Nat.zero_le _

/- A word waits while balanced code runs. -/
theorem saved
    (hInner : StackBalanced ls)
    (dst : Reg) :
    StackBalanced
      (.instr (.push .rax) ::
        (ls ++ [.instr (.pop dst)])) := by
  have hPush (us : List Line) :
      pushes (.instr (.push .rax) :: us) = pushes us + 1 :=
    List.count_cons_self
  have hPop (us : List Line) :
      pops (.instr (.push .rax) :: us) = pops us := rfl
  constructor
  · rw [hPush, hPop, pushes_append, pops_append,
      hInner.even]
    rfl
  · intro i
    cases i with
    | zero =>
        exact Nat.le_refl 0
    | succ i =>
        have hBefore := hInner.above i
        have hLast :
            pops
                ([Line.instr (.pop dst)].take
                  (i - ls.length)) ≤
              1 :=
          Nat.le_trans List.countP_le_length
            (List.length_take_le' _ _)
        rw [List.take_succ_cons, hPush, hPop,
          List.take_append, pushes_append, pops_append]
        omega

end StackBalanced

/- Lines that are balanced, and empty at each junction. -/
structure StackLevel
    (ls : List Line) : Prop extends StackBalanced ls where
  junction :
    ∀ i l,
      ls[i]? = some l →
      l.isJunction = true →
      pushes (ls.take i) = pops (ls.take i)

namespace StackLevel

variable {ls ls' : List Line}

theorem append
    (hFirst : StackLevel ls)
    (hSecond : StackLevel ls') :
    StackLevel (ls ++ ls') := by
  refine ⟨hFirst.toStackBalanced.append
    hSecond.toStackBalanced, ?_⟩
  intro i l hLine hJunction
  rw [List.take_append, pushes_append, pops_append]
  by_cases hInside : i < ls.length
  · rw [List.getElem?_append_left hInside] at hLine
    have hEven := hFirst.junction i l hLine hJunction
    have hNone : i - ls.length = 0 := by omega
    rw [hEven, hNone]
    rfl
  · have hBehind : ls.length ≤ i := by omega
    rw [List.getElem?_append_right hBehind] at hLine
    have hEven := hSecond.junction _ l hLine hJunction
    rw [List.take_of_length_le hBehind, hFirst.even, hEven]

/- Lines without a junction. -/
theorem of_balanced
    (hBalanced : StackBalanced ls)
    (hStraight : ∀ l ∈ ls, l.isJunction = false) :
    StackLevel ls := by
  refine ⟨hBalanced, ?_⟩
  intro i l hLine hJunction
  rw [hStraight l (List.mem_of_getElem? hLine)] at hJunction
  cases hJunction

theorem of_isNeutral
    (hNeutral : ls.all Line.isNeutral = true) :
    StackLevel ls := by
  refine ⟨.of_isNeutral hNeutral, ?_⟩
  intro i l _ _
  rw [List.all_eq_true] at hNeutral
  have hBefore :
      ∀ l ∈ ls.take i, l.isNeutral = true :=
    fun l hMem => hNeutral l (List.mem_of_mem_take hMem)
  rw [pushes_eq_zero hBefore, pops_eq_zero hBefore]

end StackLevel

------------------------------------------------------------
-- From One Junction to the Next
------------------------------------------------------------

/-
  The lines `vs` stand in `ls` between two junctions that
  follow each other, or before the first one, or after the
  last one.
-/
def IsStretch
    (ls vs : List Line) : Prop :=
  ∃ us ws,
    ls = us ++ (vs ++ ws) ∧
    (∀ l ∈ vs, l.isJunction = false) ∧
    (∀ l ∈ us.getLast?, l.isJunction = true) ∧
    ∀ l ∈ ws.head?, l.isJunction = true

namespace StackLevel

variable {ls vs : List Line}

/- Nothing is on the stack where a stretch starts. -/
theorem even_before
    {us rest : List Line}
    (hLevel : StackLevel (us ++ rest))
    (hLast : ∀ l ∈ us.getLast?, l.isJunction = true) :
    pushes us = pops us := by
  rcases List.eq_nil_or_concat us with rfl | ⟨us, l, rfl⟩
  · rfl
  · have hJunction : l.isJunction = true :=
      hLast l (by simp)
    have hEven :=
      hLevel.junction us.length l (by simp) hJunction
    have hNeutral : ∀ l' ∈ [l], l'.isNeutral = true := by
      intro l' hMem
      rw [List.mem_singleton.mp hMem]
      exact Line.isNeutral_of_isJunction hJunction
    rw [List.concat_eq_append] at hEven ⊢
    rw [List.append_assoc, List.take_left] at hEven
    rw [pushes_append, pops_append, hEven,
      pushes_eq_zero hNeutral, pops_eq_zero hNeutral]

/- Nothing is on the stack where a stretch ends. -/
theorem even_behind
    {us ws : List Line}
    (hLevel : StackLevel (us ++ ws))
    (hHead : ∀ l ∈ ws.head?, l.isJunction = true) :
    pushes us = pops us := by
  cases ws with
  | nil =>
      simpa using hLevel.even
  | cons l ws =>
      have hEven :=
        hLevel.junction us.length l (by simp)
          (hHead l rfl)
      simpa using hEven

/- A stretch is balanced by itself. -/
theorem balanced_of_isStretch
    (hLevel : StackLevel ls)
    (hStretch : IsStretch ls vs) :
    StackBalanced vs := by
  rcases hStretch with ⟨us, ws, rfl, -, hLast, hHead⟩
  have hStart : pushes us = pops us :=
    hLevel.even_before hLast
  have hEnd : pushes (us ++ vs) = pops (us ++ vs) := by
    rw [← List.append_assoc] at hLevel
    exact hLevel.even_behind hHead
  rw [pushes_append, pops_append] at hEnd
  constructor
  · omega
  · intro i
    have hAbove :=
      hLevel.above (us.length + min i vs.length)
    have hTake :
        (us ++ (vs ++ ws)).take
            (us.length + min i vs.length) =
          us ++ vs.take i := by
      rw [List.take_length_add_append,
        List.take_append_of_le_length (Nat.min_le_right _ _),
        ← List.take_eq_take_min]
    rw [hTake, pushes_append, pops_append] at hAbove
    omega

end StackLevel

------------------------------------------------------------
-- Expressions
------------------------------------------------------------

namespace Emitter

/-
  Whatever is emitted is balanced, and has no labels and no
  jumps.
-/
def Balances
    (e : Emitter) : Prop :=
  ∀ k ls k',
    e.Emits k ls k' →
    StackBalanced ls ∧ ∀ l ∈ ls, l.isJunction = false

/- Whatever is emitted is empty at each junction. -/
def Levels
    (e : Emitter) : Prop :=
  ∀ k ls k', e.Emits k ls k' → StackLevel ls

variable {a b : Emitter}

theorem Balances.levels
    (hBalances : Balances a) :
    Levels a := by
  intro k ls k' hEmits
  rcases hBalances k ls k' hEmits with
    ⟨hBalanced, hStraight⟩
  exact .of_balanced hBalanced hStraight

theorem Balances.append
    (hFirst : Balances a)
    (hSecond : Balances b) :
    Balances (a ++ b) := by
  intro k ls k' hEmits
  rcases emits_append.mp hEmits with
    ⟨ls₁, k₁, ls₂, hA, hB, rfl⟩
  rcases hFirst _ _ _ hA with ⟨hBalanced, hStraight⟩
  rcases hSecond _ _ _ hB with ⟨hBalanced', hStraight'⟩
  exact ⟨hBalanced.append hBalanced',
    List.forall_mem_append.mpr ⟨hStraight, hStraight'⟩⟩

/- Instructions that do not jump or touch the stack. -/
theorem Balances.instrs
    {is : List Instr}
    (hNeutral :
      (is.map Line.instr).all Line.isNeutral = true)
    (hStraight :
      (is.map Line.instr).any Line.isJunction = false) :
    Balances (instrs is) := by
  intro k ls k' hEmits
  rcases emits_instrs.mp hEmits with ⟨rfl, rfl⟩
  rw [List.any_eq_false] at hStraight
  exact ⟨.of_isNeutral hNeutral,
    fun l hMem => Bool.eq_false_iff.mpr (hStraight l hMem)⟩

/- A word waits while balanced code runs. -/
theorem Balances.saved
    {before after : List Instr}
    (hInner : Balances a)
    (hBefore : Balances (.instrs before))
    (hAfter : Balances (.instrs after))
    (dst : Reg) :
    Balances
      (.instrs [.push .rax] ++
        (a ++ .instrs (before ++ .pop dst :: after))) := by
  intro k ls k' hEmits
  simp only [emits_append, emits_instrs] at hEmits
  rcases hEmits with
    ⟨_, _, _, ⟨rfl, rfl⟩,
      ⟨inner, _, _, hEmits, ⟨rfl, rfl⟩, rfl⟩, rfl⟩
  rcases hInner _ _ _ hEmits with ⟨hBalanced, hStraight⟩
  rcases hBefore 0 _ 0 (emits_instrs.mpr ⟨rfl, rfl⟩) with
    ⟨hBalanced₁, hStraight₁⟩
  rcases hAfter 0 _ 0 (emits_instrs.mpr ⟨rfl, rfl⟩) with
    ⟨hBalanced₂, hStraight₂⟩
  constructor
  · have hAll :=
      ((hBalanced.append hBalanced₁).saved dst).append
        hBalanced₂
    simpa using hAll
  · simp only [List.map_cons, List.map_nil, List.map_append,
      List.singleton_append, List.forall_mem_cons,
      List.forall_mem_append]
    exact ⟨rfl, hStraight, hStraight₁, rfl, hStraight₂⟩

end Emitter

namespace Expr

variable (locals : Locals)

theorem balances_address
    (e : Expr) :
    (e.address locals).Balances := by
  intro k ls k' hEmits
  rcases emits_address.mp hEmits with
    ⟨offset, span, rfl, -, rfl, rfl⟩
  exact ⟨.of_isNeutral rfl, by simp [Line.isJunction]⟩

theorem balances_binOp
    (op : BinOp) :
    (Emitter.instrs op.code).Balances := by
  apply Emitter.Balances.instrs (isNeutral_binOp op)
  cases op <;> rfl

/- Each push of an expression has its pop. -/
theorem balances_code
    (e : Expr) :
    (e.code locals).Balances := by
  induction e with
  | int value span =>
      exact .instrs rfl rfl
  | var offset span =>
      exact .append (balances_address locals _)
        (.instrs rfl rfl)
  | binary op lhs rhs span ihLhs ihRhs =>
      have hMove :
          (Emitter.instrs [.mov .rdi .rax]).Balances :=
        .instrs rfl rfl
      exact ihLhs.append
        (ihRhs.saved hMove (balances_binOp op) .rax)
  | assign target value span ihTarget ihValue =>
      have hNone : (Emitter.instrs []).Balances :=
        .instrs rfl rfl
      have hStore :
          (Emitter.instrs [.store .rdi .rax]).Balances :=
        .instrs rfl rfl
      exact (balances_address locals target).append
        (ihValue.saved hNone hStore .rdi)

end Expr

------------------------------------------------------------
-- Statements
------------------------------------------------------------

/- Labels and jumps leave the stack level. -/
theorem isComposed_stackLevel :
    IsComposed StackLevel where
  nil := .of_isNeutral rfl
  append _ _ hFirst hSecond := hFirst.append hSecond
  label _ := .of_isNeutral rfl
  jump _ := .of_isNeutral rfl
  branch _ := .of_isNeutral rfl

/- Nothing is on the stack at a junction of a statement. -/
theorem Stmt.levels_code
    (locals : Locals)
    (s : Stmt) :
    (s.code locals).Levels :=
  Stmt.ensures_code isComposed_stackLevel
    (fun e => (e.balances_code locals).levels) s

------------------------------------------------------------
-- The Count and the Lines
------------------------------------------------------------

namespace CountedEmission.Matches

variable {low top d k : Nat}
variable {e : Emitter}
variable {r : CountedEmission}

/- Only a fault or a large count halts an emission. -/
theorem halt_ne
    {a : Emission}
    {halt : Halt}
    (hMatches : r.Matches low top d a)
    (hFault : ∀ fault, halt ≠ .fault fault)
    (hOverflow : halt ≠ .overflow) :
    r.halt? ≠ some halt := by
  intro hHalt
  rcases hMatches.outcome with hAgrees | ⟨hLarge, -⟩
  · rw [hAgrees.halt, Option.map_eq_some_iff] at hHalt
    rcases hHalt with ⟨fault, -, hEq⟩
    exact hFault fault hEq.symm
  · rw [hLarge, Option.some.injEq] at hHalt
    exact hOverflow hHalt.symm

/- Where there is room, only a fault halts it. -/
theorem halt_eq
    {a : Emission}
    (hMatches : r.Matches low top d a)
    (hRoom : top < 2 ^ 32) :
    r.halt? = a.fault?.map .fault := by
  rcases hMatches.outcome with hAgrees | ⟨-, hLarge⟩
  · exact hAgrees.halt
  · omega

/- An emission that does not halt reaches its count. -/
theorem emits
    (hMatches : r.Matches low top d (e k))
    (hDone : r.halt? = none) :
    r.depth = d ∧ e.Emits k r.lines r.labels := by
  rcases hMatches.outcome with hAgrees | ⟨hLarge, -⟩
  · have hFault : (e k).fault? = none := by
      rw [hAgrees.halt] at hDone
      exact Option.map_eq_none_iff.mp hDone
    refine ⟨hAgrees.depth hFault, ?_⟩
    rw [Emitter.Emits, hAgrees.lines, hAgrees.labels,
      ← hFault]
  · rw [hLarge] at hDone
    cases hDone

end CountedEmission.Matches

/-
  The count of an expression is never below where it started
  and comes back to it, and the lines of an expression are
  balanced. A count that is too large is the only thing that
  can go wrong, and nothing goes wrong where it has room. So
  no statement of a program, also not one inside another,
  ends with words on the stack, and its lines are balanced
  from each label or jump to the next.
-/
theorem stack_counter_is_balanced :
    (∀ (locals : Locals) (e : Expr) (k d : Nat),
      let r := e.counted locals k d
      (r.halt? = none →
        r.depth = d ∧
        (e.code locals).Emits k r.lines r.labels ∧
        StackBalanced r.lines) ∧
      (∀ entry ∈ r.entries, d ≤ entry.2) ∧
      r.halt? ≠ some .underflow ∧
      (d + e.words < 2 ^ 32 →
        r.halt? = (e.code locals k).fault?.map .fault)) ∧
    ∀ p : Program,
      p.counted.halt? ≠ some .unbalanced ∧
      p.counted.halt? ≠ some .underflow ∧
      (Stmt.wordsAll p.body < 2 ^ 32 →
        p.counted.halt? = p.lower.fault?.map .fault ∧
        p.counted.lines = p.lower.lines) ∧
      ∀ s ∈ Stmt.partsAll p.body, ∀ k,
        let r := s.counted p.locals k 0
        r.halt? ≠ some .unbalanced ∧
        (r.halt? = none → r.depth = 0) ∧
        (s.words < 2 ^ 32 →
          r.halt? = (s.code p.locals k).fault?.map .fault) ∧
        ∀ ls k',
          (s.code p.locals).Emits k ls k' →
          ∀ vs, IsStretch ls vs → StackBalanced vs := by
  constructor
  · intro locals e k d r
    have hMatches :
        r.Matches d (d + e.words) d (e.code locals k) :=
      e.leads_counted locals d k
    refine ⟨?_, hMatches.floor,
      hMatches.halt_ne (by simp) (by simp),
      hMatches.halt_eq⟩
    intro hDone
    rcases hMatches.emits hDone with ⟨hDepth, hEmits⟩
    exact ⟨hDepth, hEmits,
      (e.balances_code locals k _ _ hEmits).1⟩
  · intro p
    have hProgram := p.matches_counted
    refine ⟨hProgram.halt_ne (by simp) (by simp),
      hProgram.halt_ne (by simp) (by simp), ?_, ?_⟩
    · intro hRoom
      rcases hProgram.outcome with hAgrees | ⟨-, hLarge⟩
      · exact ⟨hAgrees.halt, hAgrees.lines⟩
      · omega
    · intro s _ k r
      have hMatches :
          r.Matches 0 s.words 0 (s.code p.locals k) :=
        s.leads_counted p.locals k
      refine ⟨hMatches.halt_ne (by simp) (by simp),
        fun hDone => (hMatches.emits hDone).1,
        hMatches.halt_eq, ?_⟩
      intro ls k' hEmits vs hStretch
      exact (s.levels_code p.locals k ls k'
        hEmits).balanced_of_isStretch hStretch

/-
  A loop whose body has an assignment inside an assignment:
  the count of the body starts and ends with three, and the
  lines from the jump out of the loop to the jump back are
  balanced.
-/
theorem loop_body_is_balanced :
    let here : Span := ⟨0, 0⟩
    let locals : Locals := ⟨["a", "b"]⟩
    let sum : Expr :=
      .binary .add (.var ⟨8⟩ here) (.int 1 here) here
    let inner : Expr := .assign (.var ⟨16⟩ here) sum here
    let e : Expr :=
      .assign (.var ⟨8⟩ here)
        (.binary .mul inner (.var ⟨16⟩ here) here) here
    let less : Expr :=
      .binary .lt (.var ⟨8⟩ here) (.int 9 here) here
    let loop : Stmt :=
      .whileLoop less (.expr e here) here
    let body := (e.code locals 1).lines
    let r := e.counted locals 1 3
    (r.halt? = none ∧ r.depth = 3 ∧
      StackBalanced r.lines) ∧
    IsStretch (loop.code locals 0).lines body ∧
    StackBalanced body := by
  intro here locals sum inner e less loop body r
  have hDone : r.halt? = none := by
    decide +kernel
  rcases stack_counter_is_balanced with ⟨hExpr, hProgram⟩
  rcases (hExpr locals e 1 3).1 hDone with
    ⟨hDepth, -, hBalanced⟩
  let head : List Line :=
    .label ⟨.begin, 1⟩ ::
      (less.codeUnless locals ⟨.finish, 1⟩ 1).lines
  let back : List Line :=
    [.instr (.jmp ⟨.begin, 1⟩), .label ⟨.finish, 1⟩]
  have hStretch :
      IsStretch (loop.code locals 0).lines body := by
    refine ⟨head, back, ?_, ?_, ?_, ?_⟩ <;> decide +kernel
  rcases hProgram ⟨Program.mainName, [loop], locals⟩ with
    ⟨-, -, -, hParts⟩
  rcases hParts loop (by simp [Stmt.partsAll, loop,
    Stmt.parts]) 0 with ⟨-, -, -, hLines⟩
  exact ⟨⟨hDone, hDepth, hBalanced⟩, hStretch,
    hLines _ (loop.code locals 0).labels (by rfl) body
      hStretch⟩

end WordLang
