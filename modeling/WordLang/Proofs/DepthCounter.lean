import WordLang.Proofs.FaultOrder
import WordLang.Proofs.StackDepth

/-
  This file emits code and counts the words on the stack.

  The count is kept beside the code: a push adds one to it,
  a pop takes one off, and a statement has to end with zero.
  It is a 32-bit word. An emission halts when the count
  would leave its range or when a statement does not end
  with zero, and every line is noted with the count after
  it.

  Apart from a count that grows too large, an emission that
  counts does what the one without a count does. The count
  is never below the one it started with, and it ends there.

  Key definitions include:
    * `WordLang.Halt`
    * `WordLang.CountingEmitter`
    * `WordLang.Expr.counted`
    * `WordLang.Stmt.counted`
    * `WordLang.CountingEmitter.Leads`

  Key theorems include:
    * `WordLang.CountingEmitter.Leads.append`
    * `WordLang.Expr.leads_counted`
    * `WordLang.Stmt.leads_counted`
    * `WordLang.Program.matches_counted`
-/

namespace WordLang

------------------------------------------------------------
-- Emitters That Count
------------------------------------------------------------

/-
  What halts an emission: a fault of the program, a count
  that does not fit, a pop without a push, or a statement
  that leaves words on the stack.
-/
inductive Halt where
  | fault (fault : Located Fault)
  | overflow
  | underflow
  | unbalanced
deriving DecidableEq, Repr

/-
  What was emitted: each line with the count after it, the
  labels in use and the count at the end, and what halted
  the emission.
-/
structure CountedEmission where
  entries : List (Line × Nat)
  labels : Nat
  depth : Nat
  halt? : Option Halt
deriving DecidableEq, Repr

/- The lines without the counts. -/
def CountedEmission.lines
    (r : CountedEmission) : List Line :=
  r.entries.map Prod.fst

/- One emission after another. -/
def CountedEmission.followedBy
    (r r' : CountedEmission) : CountedEmission :=
  { r' with entries := r.entries ++ r'.entries }

theorem CountedEmission.lines_followedBy
    (r r' : CountedEmission) :
    (r.followedBy r').lines = r.lines ++ r'.lines :=
  List.map_append

/-
  Emission that goes on from a number of labels in use and
  from a count.
-/
def CountingEmitter := Nat → Nat → CountedEmission

namespace CountingEmitter

/- Emit lines that are not counted. -/
def plain
    (e : Emitter) : CountingEmitter :=
  fun labels depth =>
    ⟨(e labels).lines.map (fun l => (l, depth)),
      (e labels).labels, depth,
      (e labels).fault?.map .fault⟩

/- Emit a push, and count the word. -/
def push : CountingEmitter :=
  fun labels depth =>
    let line := Line.instr (.push .rax)
    if depth + 1 < 2 ^ 32 then
      ⟨[(line, depth + 1)], labels, depth + 1, none⟩
    else
      ⟨[(line, depth)], labels, depth, some .overflow⟩

/- Emit a pop, and count the word off. -/
def pop
    (dst : Reg) : CountingEmitter :=
  fun labels depth =>
    let line := Line.instr (.pop dst)
    match depth with
    | 0 => ⟨[(line, 0)], labels, 0, some .underflow⟩
    | d + 1 => ⟨[(line, d)], labels, d, none⟩

/- Require that no words are left. -/
def requireEmpty : CountingEmitter :=
  fun labels depth =>
    ⟨[], labels, depth,
      if depth = 0 then none else some .unbalanced⟩

/- One emission after another, unless the first halts. -/
def append
    (first second : CountingEmitter) : CountingEmitter :=
  fun labels depth =>
    let a := first labels depth
    match a.halt? with
    | some _ => a
    | none => a.followedBy (second a.labels a.depth)

instance : Append CountingEmitter :=
  ⟨append⟩

/- Take the next label number. -/
def withLabel
    (emit : UInt32 → CountingEmitter) : CountingEmitter :=
  fun labels =>
    emit (UInt32.ofNat (labels + 1)) (labels + 1)

end CountingEmitter

------------------------------------------------------------
-- Code With a Count
------------------------------------------------------------

namespace Expr

open CountingEmitter

/- The code of an expression. -/
def counted
    (locals : Locals) :
    Expr → CountingEmitter
| int value _ => plain (.instrs [.movImm .rax value])
| var offset span =>
    plain (address locals (.var offset span)) ++
      plain (.instrs [.load .rax .rax])
| binary op lhs rhs _ =>
    counted locals lhs ++
      (push ++
        (counted locals rhs ++
          (plain (.instrs [.mov .rdi .rax]) ++
            (pop .rax ++ plain (.instrs op.code)))))
| assign target value _ =>
    plain (address locals target) ++
      (push ++
        (counted locals value ++
          (pop .rdi ++
            plain (.instrs [.store .rdi .rax]))))

/- The code of an expression that may be left out. -/
def countedOption
    (locals : Locals) :
    Option Expr → CountingEmitter
| none => plain .nothing
| some e => counted locals e

/- Leave for `target` when an expression is zero. -/
def countedUnless
    (locals : Locals)
    (target : Label)
    (e : Expr) : CountingEmitter :=
  counted locals e ++
    plain (.instrs [.cmpZero .rax, .je target])

end Expr

namespace Stmt

open CountingEmitter

mutual

/- The code of a statement, which ends with a check. -/
def counted
    (locals : Locals) :
    Stmt → CountingEmitter
| expr e _ => e.counted locals ++ requireEmpty
| ret e _ =>
    (e.counted locals ++ plain (.instrs [.jmp .atExit])) ++
      requireEmpty
| ifThen predicate thenArm _ =>
    (withLabel fun id =>
      predicate.countedUnless locals ⟨.finish, id⟩ ++
        (counted locals thenArm ++
          plain (.lines [.label ⟨.finish, id⟩]))) ++
      requireEmpty
| ifElse predicate thenArm elseArm _ =>
    (withLabel fun id =>
      predicate.countedUnless locals ⟨.orElse, id⟩ ++
        (counted locals thenArm ++
          (plain (.lines
              [.instr (.jmp ⟨.finish, id⟩),
               .label ⟨.orElse, id⟩]) ++
            (counted locals elseArm ++
              plain (.lines [.label ⟨.finish, id⟩]))))) ++
      requireEmpty
| whileLoop predicate body _ =>
    (withLabel fun id =>
      plain (.lines [.label ⟨.begin, id⟩]) ++
        (predicate.countedUnless locals ⟨.finish, id⟩ ++
          (counted locals body ++
            plain (.lines
              [.instr (.jmp ⟨.begin, id⟩),
               .label ⟨.finish, id⟩])))) ++
      requireEmpty
| forLoop init predicate step body _ =>
    (withLabel fun id =>
      Expr.countedOption locals init ++
        (plain (.lines [.label ⟨.begin, id⟩]) ++
          ((match predicate with
            | none => plain .nothing
            | some e =>
                e.countedUnless locals ⟨.finish, id⟩) ++
            (counted locals body ++
              (Expr.countedOption locals step ++
                plain (.lines
                  [.instr (.jmp ⟨.begin, id⟩),
                   .label ⟨.finish, id⟩])))))) ++
      requireEmpty
| block body _ => countedAll locals body ++ requireEmpty

/- The code of statements one after another. -/
def countedAll
    (locals : Locals) :
    List Stmt → CountingEmitter
| [] => plain .nothing
| s :: ss => counted locals s ++ countedAll locals ss

end

end Stmt

/-
  The code of a program. The words of the frame are not
  counted.
-/
def Program.counted
    (p : Program) : CountedEmission :=
  (CountingEmitter.plain (.instrs (prologue p.locals)) ++
    (Stmt.countedAll p.locals p.body ++
      CountingEmitter.plain (.lines epilogue))) 0 0

------------------------------------------------------------
-- The Course of the Count
------------------------------------------------------------

/-
  The same was emitted with a count as without, and unless
  there was a fault, the count has come to `d`.
-/
structure CountedEmission.Agrees
    (d : Nat)
    (a : Emission)
    (r : CountedEmission) : Prop where
  lines : r.lines = a.lines
  labels : r.labels = a.labels
  halt : r.halt? = a.fault?.map .fault
  depth : a.fault? = none → r.depth = d

/-
  No count is below `low`, and either the emissions agree or
  the count does not fit, where `top` does not fit either.
-/
structure CountedEmission.Matches
    (low top d : Nat)
    (a : Emission)
    (r : CountedEmission) : Prop where
  floor : ∀ entry ∈ r.entries, low ≤ entry.2
  outcome :
    r.Agrees d a ∨
      (r.halt? = some .overflow ∧ 2 ^ 32 ≤ top)

namespace CountingEmitter

/-
  From the count `d`, the emitter `c` leads to the count
  `d'` and emits what `e` emits. On the way, the count stays
  between `low` and `top`.
-/
def Leads
    (low top d d' : Nat)
    (e : Emitter)
    (c : CountingEmitter) : Prop :=
  ∀ labels, (c labels d).Matches low top d' (e labels)

theorem append_of_halt
    {a b : CountingEmitter}
    {labels depth : Nat}
    {halt : Halt}
    (hHalt : (a labels depth).halt? = some halt) :
    (a ++ b) labels depth = a labels depth := by
  change append a b labels depth = _
  simp only [append, hHalt]

theorem append_of_none
    {a b : CountingEmitter}
    {labels depth : Nat}
    (hHalt : (a labels depth).halt? = none) :
    (a ++ b) labels depth =
      (a labels depth).followedBy
        (b (a labels depth).labels
          (a labels depth).depth) := by
  change append a b labels depth = _
  simp only [append, hHalt]

end CountingEmitter

namespace Emitter

theorem append_nothing
    (e : Emitter) :
    e ++ nothing = e := by
  funext labels
  cases hFault : (e labels).fault? with
  | some fault =>
      exact append_of_some hFault
  | none =>
      rw [append_of_none hFault]
      simp only [nothing, List.append_nil, ← hFault]

/- Instructions can be emitted one part after another. -/
theorem instrs_append
    (is is' : List Instr) :
    instrs (is ++ is') = instrs is ++ instrs is' := by
  funext labels
  rw [append_of_none rfl]
  simp [instrs, lines]

end Emitter

namespace CountingEmitter.Leads

variable {low top d d₁ d' : Nat}
variable {e e₁ e₂ : Emitter}
variable {c c₁ c₂ : CountingEmitter}

theorem mono
    {low' top' : Nat}
    (hLeads : Leads low top d d' e c)
    (hLow : low' ≤ low)
    (hTop : top ≤ top') :
    Leads low' top' d d' e c := by
  intro labels
  rcases hLeads labels with ⟨hFloor, hOutcome⟩
  refine ⟨?_, ?_⟩
  · intro entry hMem
    exact Nat.le_trans hLow (hFloor entry hMem)
  · rcases hOutcome with hAgrees | ⟨hHalt, hLarge⟩
    · exact .inl hAgrees
    · exact .inr ⟨hHalt, Nat.le_trans hLarge hTop⟩

/-
  One part after another. The second part starts with the
  count that the first one ends with, if it is reached.
-/
theorem append
    (hFirst : Leads low top d d₁ e₁ c₁)
    (hSecond : Leads low top d₁ d' e₂ c₂) :
    Leads low top d d' (e₁ ++ e₂) (c₁ ++ c₂) := by
  intro labels
  rcases hFirst labels with ⟨hFloor, hOutcome⟩
  rcases hOutcome with hAgrees | ⟨hHalt, hLarge⟩
  · cases hFault : (e₁ labels).fault? with
    | some fault =>
        have hHalt :
            (c₁ labels d).halt? = some (.fault fault) := by
          rw [hAgrees.halt, hFault]
          rfl
        rw [append_of_halt hHalt,
          Emitter.append_of_some hFault]
        refine ⟨hFloor, .inl ⟨hAgrees.lines,
          hAgrees.labels, hAgrees.halt, ?_⟩⟩
        rw [hFault]
        exact fun hNone => nomatch hNone
    | none =>
        have hHalt : (c₁ labels d).halt? = none := by
          rw [hAgrees.halt, hFault]
          rfl
        rw [append_of_none hHalt,
          Emitter.append_of_none hFault, hAgrees.labels,
          hAgrees.depth hFault]
        rcases hSecond (e₁ labels).labels with
          ⟨hFloor', hOutcome'⟩
        refine ⟨?_, ?_⟩
        · intro entry hMem
          rcases List.mem_append.mp hMem with hMem | hMem
          · exact hFloor entry hMem
          · exact hFloor' entry hMem
        · rcases hOutcome' with hAgrees' | hOverflow
          · refine .inl ⟨?_, hAgrees'.labels, hAgrees'.halt,
              hAgrees'.depth⟩
            rw [CountedEmission.lines_followedBy,
              hAgrees.lines, hAgrees'.lines]
          · exact .inr hOverflow
  · rw [append_of_halt hHalt]
    exact ⟨hFloor, .inr ⟨hHalt, hLarge⟩⟩

/- What is not counted leaves the count alone. -/
theorem plain
    (e : Emitter)
    (hLow : low ≤ d) :
    Leads low top d d e (plain e) := by
  intro labels
  refine ⟨?_, .inl ⟨?_, rfl, rfl, fun _ => rfl⟩⟩
  · intro entry hMem
    rcases List.mem_map.mp hMem with ⟨l, -, rfl⟩
    exact hLow
  · simp [CountedEmission.lines, CountingEmitter.plain,
      Function.comp_def]

theorem push
    (hLow : low ≤ d)
    (hTop : d + 1 ≤ top) :
    Leads low top d (d + 1) (.instrs [.push .rax]) push := by
  intro labels
  unfold CountingEmitter.push
  by_cases hRoom : d + 1 < 2 ^ 32
  · rw [if_pos hRoom]
    refine ⟨?_, .inl ⟨rfl, rfl, rfl, fun _ => rfl⟩⟩
    intro entry hMem
    rw [List.mem_singleton.mp hMem]
    exact Nat.le_succ_of_le hLow
  · rw [if_neg hRoom]
    refine ⟨?_, .inr ⟨rfl, by omega⟩⟩
    intro entry hMem
    rw [List.mem_singleton.mp hMem]
    exact hLow

theorem pop
    (dst : Reg)
    (hLow : low ≤ d) :
    Leads low top (d + 1) d (.instrs [.pop dst])
      (pop dst) := by
  intro labels
  refine ⟨?_, .inl ⟨rfl, rfl, rfl, fun _ => rfl⟩⟩
  intro entry hMem
  rw [List.mem_singleton.mp hMem]
  exact hLow

/- A word waits while the code `e` runs. -/
theorem saved
    (before after : List Instr)
    (dst : Reg)
    (hLow : low ≤ d)
    (hTop : d + 1 ≤ top)
    (hInner : Leads low top (d + 1) (d + 1) e c) :
    Leads low top d d
      (.instrs [.push .rax] ++
        (e ++ .instrs (before ++ .pop dst :: after)))
      (CountingEmitter.push ++
        (c ++
          (CountingEmitter.plain (.instrs before) ++
            (CountingEmitter.pop dst ++
              CountingEmitter.plain (.instrs after))))) := by
  have hSplit :
      Emitter.instrs (before ++ .pop dst :: after) =
        .instrs before ++
          (.instrs [.pop dst] ++ .instrs after) := by
    rw [← Emitter.instrs_append, ← Emitter.instrs_append]
    rfl
  rw [hSplit]
  apply (push hLow hTop).append
  apply hInner.append
  apply (plain _ (Nat.le_succ_of_le hLow)).append
  exact (pop dst hLow).append (plain _ hLow)

theorem withLabel
    {emit : UInt32 → Emitter}
    {emit' : UInt32 → CountingEmitter}
    (hLeads :
      ∀ id, Leads low top d d' (emit id) (emit' id)) :
    Leads low top d d' (.withLabel emit)
      (withLabel emit') := by
  intro labels
  exact hLeads (UInt32.ofNat (labels + 1)) (labels + 1)

/- The check passes when no words are left. -/
theorem checked
    (hLeads : Leads low top d 0 e c) :
    Leads low top d 0 e (c ++ requireEmpty) := by
  have hCheck : Leads low top 0 0 .nothing requireEmpty := by
    intro labels
    refine ⟨?_, .inl ⟨rfl, rfl, rfl, fun _ => rfl⟩⟩
    exact fun entry hMem => nomatch hMem
  rw [← Emitter.append_nothing e]
  exact hLeads.append hCheck

end CountingEmitter.Leads

------------------------------------------------------------
-- Expressions and Statements
------------------------------------------------------------

open CountingEmitter (Leads)

namespace Expr

variable (locals : Locals)

/-
  The count of an expression ends where it started, and is
  not below that on the way.
-/
theorem leads_counted
    (e : Expr)
    (d : Nat) :
    Leads d (d + e.words) d d (e.code locals)
      (e.counted locals) := by
  induction e generalizing d with
  | int value span =>
      exact .plain _ (Nat.le_refl d)
  | var offset span =>
      exact .append (.plain _ (Nat.le_refl d))
        (.plain _ (Nat.le_refl d))
  | binary op lhs rhs span ihLhs ihRhs =>
      rw [words]
      have hRight :
          Leads d (d + max lhs.words (1 + rhs.words)) (d + 1)
            (d + 1) (rhs.code locals) (rhs.counted locals) :=
        (ihRhs (d + 1)).mono (Nat.le_succ d) (by omega)
      apply Leads.append
      · exact (ihLhs d).mono (Nat.le_refl d) (by omega)
      · exact hRight.saved [.mov .rdi .rax] op.code .rax
          (Nat.le_refl d) (by omega)
  | assign target value span ihTarget ihValue =>
      rw [words]
      have hValue :
          Leads d (d + (1 + value.words)) (d + 1) (d + 1)
            (value.code locals) (value.counted locals) :=
        (ihValue (d + 1)).mono (Nat.le_succ d) (by omega)
      apply Leads.append
      · exact .plain _ (Nat.le_refl d)
      · exact hValue.saved [] [.store .rdi .rax] .rdi
          (Nat.le_refl d) (by omega)

theorem leads_countedOption
    (e : Option Expr)
    (d : Nat) :
    Leads d (d + wordsOption e) d d (codeOption locals e)
      (countedOption locals e) := by
  cases e with
  | none =>
      exact .plain _ (Nat.le_refl d)
  | some e =>
      exact leads_counted locals e d

theorem leads_countedUnless
    (target : Label)
    (e : Expr)
    (d : Nat) :
    Leads d (d + e.words) d d (e.codeUnless locals target)
      (e.countedUnless locals target) :=
  .append (leads_counted locals e d)
    (.plain _ (Nat.le_refl d))

end Expr

namespace Stmt

variable (locals : Locals)

/- Between two statements the count is zero. -/
theorem leads_between
    (top : Nat)
    (ls : List Line) :
    Leads 0 top 0 0 (.lines ls)
      (CountingEmitter.plain (.lines ls)) :=
  .plain _ (Nat.le_refl 0)

/- An expression of a statement starts with zero. -/
theorem leads_within
    {top words : Nat}
    {e : Emitter}
    {c : CountingEmitter}
    (hLeads : Leads 0 (0 + words) 0 0 e c)
    (hTop : words ≤ top) :
    Leads 0 top 0 0 e c :=
  hLeads.mono (Nat.le_refl 0) (by omega)

mutual

/- The count of a statement starts and ends with zero. -/
theorem leads_counted
    (s : Stmt) :
    Leads 0 s.words 0 0 (s.code locals)
      (s.counted locals) := by
  match s with
  | expr e _ =>
      apply Leads.checked
      exact leads_within (e.leads_counted locals 0)
        (Nat.le_refl _)
  | ret e _ =>
      apply Leads.checked
      apply Leads.append
      · exact leads_within (e.leads_counted locals 0)
          (Nat.le_refl _)
      · exact leads_between _ _
  | ifThen predicate thenArm _ =>
      rw [code, counted, words]
      apply Leads.checked
      apply Leads.withLabel
      intro id
      apply Leads.append
      · exact leads_within
          (predicate.leads_countedUnless locals _ 0)
          (by omega)
      · apply Leads.append
        · exact (leads_counted thenArm).mono (Nat.le_refl 0)
            (by omega)
        · exact leads_between _ _
  | ifElse predicate thenArm elseArm _ =>
      rw [code, counted, words]
      apply Leads.checked
      apply Leads.withLabel
      intro id
      apply Leads.append
      · exact leads_within
          (predicate.leads_countedUnless locals _ 0)
          (by omega)
      · apply Leads.append
        · exact (leads_counted thenArm).mono (Nat.le_refl 0)
            (by omega)
        · apply (leads_between _ _).append
          apply Leads.append
          · exact (leads_counted elseArm).mono
              (Nat.le_refl 0) (by omega)
          · exact leads_between _ _
  | whileLoop predicate body _ =>
      rw [code, counted, words]
      apply Leads.checked
      apply Leads.withLabel
      intro id
      apply (leads_between _ _).append
      apply Leads.append
      · exact leads_within
          (predicate.leads_countedUnless locals _ 0)
          (by omega)
      · apply Leads.append
        · exact (leads_counted body).mono (Nat.le_refl 0)
            (by omega)
        · exact leads_between _ _
  | forLoop init predicate step body _ =>
      rw [code, counted, words]
      apply Leads.checked
      apply Leads.withLabel
      intro id
      apply Leads.append
      · exact leads_within
          (Expr.leads_countedOption locals init 0)
          (by omega)
      · apply (leads_between _ _).append
        apply Leads.append
        · cases predicate with
          | none =>
              exact .plain _ (Nat.le_refl 0)
          | some e =>
              exact leads_within
                (e.leads_countedUnless locals _ 0)
                (by simp only [Expr.wordsOption]; omega)
        · apply Leads.append
          · exact (leads_counted body).mono (Nat.le_refl 0)
              (by omega)
          · apply Leads.append
            · exact leads_within
                (Expr.leads_countedOption locals step 0)
                (by omega)
            · exact leads_between _ _
  | block body _ =>
      exact (leads_countedAll body).checked

/- So does that of statements one after another. -/
theorem leads_countedAll
    (ss : List Stmt) :
    Leads 0 (wordsAll ss) 0 0 (codeAll locals ss)
      (countedAll locals ss) := by
  match ss with
  | [] =>
      exact .plain _ (Nat.le_refl 0)
  | s :: ss =>
      rw [codeAll, countedAll, wordsAll]
      apply Leads.append
      · exact (leads_counted s).mono (Nat.le_refl 0)
          (by omega)
      · exact (leads_countedAll ss).mono (Nat.le_refl 0)
          (by omega)

end

end Stmt

/-
  A program is emitted with a count as it is without, unless
  an expression has more words waiting than can be counted.
-/
theorem Program.matches_counted
    (p : Program) :
    p.counted.Matches 0 (Stmt.wordsAll p.body) 0
      p.lower := by
  have hLeads :
      Leads 0 (Stmt.wordsAll p.body) 0 0
        (.instrs (prologue p.locals) ++
          (Stmt.codeAll p.locals p.body ++ .lines epilogue))
        (.plain (.instrs (prologue p.locals)) ++
          (Stmt.countedAll p.locals p.body ++
            .plain (.lines epilogue))) := by
    apply Leads.append
    · exact .plain _ (Nat.le_refl 0)
    · apply Leads.append
      · exact Stmt.leads_countedAll p.locals p.body
      · exact .plain _ (Nat.le_refl 0)
  exact hLeads 0

end WordLang
