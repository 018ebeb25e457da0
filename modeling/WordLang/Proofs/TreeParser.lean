import WordLang.Program.Reader
import WordLang.Proofs.TreeReader

/-
  This file reads derivations of programs.

  The reader takes one terminal at a time. It keeps the
  statements that wait for an arm or a body, the finished
  statements of the innermost list, and the lists around
  it. As for expressions, what it has read are the
  terminals of what it holds, and it comes to every
  derivation in which each `else` belongs to the nearest
  `if`.

  Key definitions include:
    * `WordLang.PendingTree`
    * `WordLang.TreePosition`
    * `WordLang.TreeParser`
    * `WordLang.TreeParser.step`
    * `WordLang.TreeParser.run`
    * `WordLang.TreeParser.finish`
    * `WordLang.StmtTree.ofTerminals?`

  Key theorems include:
    * `WordLang.TreeParser.step_sound`
    * `WordLang.TreeParser.run_stmt`
    * `WordLang.StmtTree.ofTerminals?_eq_some_iff`
-/

namespace WordLang

------------------------------------------------------------
-- The Reader
------------------------------------------------------------

/- A statement that waits for its arm or body. -/
inductive PendingTree where
  | thenArm (predicate : ExprTree)
  | elseArm (predicate : ExprTree) (thenArm : StmtTree)
  | whileBody (predicate : ExprTree)
  | forBody (init predicate step : Option ExprTree)

namespace PendingTree

/- The statement that `s` completes. -/
def wrap
    (p : PendingTree)
    (s : StmtTree) : StmtTree :=
  match p with
  | thenArm predicate => .ifThen predicate s
  | elseArm predicate arm => .ifElse predicate arm s
  | whileBody predicate => .whileLoop predicate s
  | forBody init predicate step =>
      .forLoop init predicate step s

/- The statement that `s` completes all the way out. -/
def wrapAll
    (ps : List PendingTree)
    (s : StmtTree) : StmtTree :=
  ps.foldl (fun s p => p.wrap s) s

/-
  Open the `else` arm of the nearest `if` that waits for its
  first arm, which `s` completes.
-/
def openElse? :
    List PendingTree →
    StmtTree →
    Option (List PendingTree)
| [], _ => none
| thenArm predicate :: rest, s =>
    some (elseArm predicate s :: rest)
| p :: rest, s => openElse? rest (p.wrap s)

end PendingTree

/- What the expression being read is for. -/
inductive TreePurpose where
  | exprStmt
  | retValue
  | ifPredicate
  | whilePredicate
  | forInit
  | forPredicate (init : Option ExprTree)
  | forStep (init predicate : Option ExprTree)

/- The kind of token that ends such an expression. -/
def TreePurpose.terminator : TreePurpose → Kind
| exprStmt | retValue | forInit | forPredicate _ =>
    .semicolon
| ifPredicate | whilePredicate | forStep _ _ => .rparen

/- Where the reader stands between two terminals. -/
inductive TreePosition where
  | boundary
  | afterStmt (s : StmtTree)
  | beforeHead (head : Head)
  | beforeInit
  | beforePredicate (init : Option ExprTree)
  | beforeStep (init predicate : Option ExprTree)
  | inExpr (purpose : TreePurpose) (reading : TreeReading)

/- A block that has not been closed, as it is around it. -/
structure OpenBlockTree where
  pending : List PendingTree
  body : List StmtTree

/-
  The state of the reader. Finished statements are listed
  from last to first.
-/
structure TreeParser where
  position : TreePosition
  pending : List PendingTree
  body : List StmtTree
  blocks : List OpenBlockTree

namespace TreeParser

/- Nothing has been read. -/
def start : TreeParser :=
  ⟨.boundary, [], [], []⟩

/- The same state at another position. -/
def goto
    (p : TreeParser)
    (position : TreePosition) : TreeParser :=
  { p with position := position }

/- A further open statement, whose inner one comes next. -/
def push
    (p : TreeParser)
    (frame : PendingTree) : TreeParser :=
  { p with
    position := .boundary
    pending := frame :: p.pending }

/- A new block. -/
def enterBlock
    (p : TreeParser) : TreeParser where
  position := .boundary
  pending := []
  body := []
  blocks := ⟨p.pending, p.body⟩ :: p.blocks

/- Put a finished statement in its place. -/
def settle
    (p : TreeParser)
    (s : StmtTree) : TreeParser :=
  { p with
    position := .boundary
    pending := []
    body := PendingTree.wrapAll p.pending s :: p.body }

/- Use a finished expression. -/
def useExpr
    (p : TreeParser)
    (d : ExprTree) :
    TreePurpose → TreeParser
| .exprStmt => p.goto (.afterStmt (.expr d))
| .retValue => p.goto (.afterStmt (.ret d))
| .ifPredicate => p.push (.thenArm d)
| .whilePredicate => p.push (.whileBody d)
| .forInit => p.goto (.beforePredicate (some d))
| .forPredicate init => p.goto (.beforeStep init (some d))
| .forStep init predicate =>
    p.push (.forBody init predicate (some d))

/- Read a terminal inside an expression. -/
def stepExpr
    (p : TreeParser)
    (purpose : TreePurpose)
    (reading : TreeReading)
    (x : Terminal) : Option TreeParser :=
  match reading.step x with
  | none => none
  | some (.more reading) =>
      some (p.goto (.inExpr purpose reading))
  | some (.done d) =>
      if x = .symbol purpose.terminator then
        some (p.useExpr d purpose)
      else
        none

/- Read the first terminal of a statement. -/
def stepStmt
    (p : TreeParser)
    (x : Terminal) : Option TreeParser :=
  if x = .symbol .kwReturn then
    some (p.goto (.inExpr .retValue (.operand [])))
  else if x = .symbol .kwIf then
    some (p.goto (.beforeHead .ifHead))
  else if x = .symbol .kwWhile then
    some (p.goto (.beforeHead .whileHead))
  else if x = .symbol .kwFor then
    some (p.goto (.beforeHead .forHead))
  else if x = .symbol .lbrace then
    some p.enterBlock
  else
    p.stepExpr .exprStmt (.operand []) x

/- Read a terminal where a statement may start. -/
def stepBoundary
    (p : TreeParser)
    (x : Terminal) : Option TreeParser :=
  match p.pending, p.blocks with
  | [], block :: blocks =>
      if x = .symbol .rbrace then
        some
          ⟨.afterStmt (.block p.body.reverse),
            block.pending, block.body, blocks⟩
      else
        p.stepStmt x
  | _, _ => p.stepStmt x

/-
  Read a terminal after a finished statement. Unless it is
  an `else` with an `if` to belong to, the statement is put
  in its place first.
-/
def stepAfter
    (p : TreeParser)
    (s : StmtTree)
    (x : Terminal) : Option TreeParser :=
  if x = .symbol .kwElse then
    match PendingTree.openElse? p.pending s with
    | some pending =>
        some { p with
          position := .boundary
          pending := pending }
    | none => (p.settle s).stepBoundary x
  else
    (p.settle s).stepBoundary x

/- Read a terminal. -/
def step
    (p : TreeParser)
    (x : Terminal) : Option TreeParser :=
  match p.position with
  | .boundary => p.stepBoundary x
  | .afterStmt s => p.stepAfter s x
  | .beforeHead head =>
      if x = .symbol .lparen then
        match head with
        | .ifHead =>
            some (p.goto (.inExpr .ifPredicate (.operand [])))
        | .whileHead =>
            some
              (p.goto (.inExpr .whilePredicate (.operand [])))
        | .forHead => some (p.goto .beforeInit)
      else
        none
  | .beforeInit =>
      if x = .symbol .semicolon then
        some (p.goto (.beforePredicate none))
      else
        p.stepExpr .forInit (.operand []) x
  | .beforePredicate init =>
      if x = .symbol .semicolon then
        some (p.goto (.beforeStep init none))
      else
        p.stepExpr (.forPredicate init) (.operand []) x
  | .beforeStep init predicate =>
      if x = .symbol .rparen then
        some (p.push (.forBody init predicate none))
      else
        p.stepExpr (.forStep init predicate) (.operand []) x
  | .inExpr purpose reading => p.stepExpr purpose reading x

/- Read some terminals. -/
def run :
    TreeParser →
    List Terminal →
    Option TreeParser
| p, [] => some p
| p, x :: xs => (p.step x).bind (fun p => p.run xs)

/- The program that has been read, if it is complete. -/
def finish
    (p : TreeParser) : Option (List StmtTree) :=
  match p.position, p.pending, p.blocks with
  | .boundary, [], [] => some p.body.reverse
  | .afterStmt s, pending, [] =>
      some (PendingTree.wrapAll pending s :: p.body).reverse
  | _, _, _ => none

end TreeParser

/- The derivation of a program from some terminals. -/
def StmtTree.ofTerminals?
    (xs : List Terminal) : Option (List StmtTree) :=
  (TreeParser.start.run xs).bind TreeParser.finish

------------------------------------------------------------
-- What Has Been Read
------------------------------------------------------------

/- A tree that is derived and valid. -/
def ExprTree.Sound
    (d : ExprTree) : Prop :=
  d.IsA 0 ∧ d.Valid

namespace StmtTree

/- A tree that is derived and valid. -/
def Sound
    (s : StmtTree) : Prop :=
  s.AllExprs ExprTree.Sound ∧ s.NearestElse

/- Trees that are derived and valid. -/
def SoundAll
    (ss : List StmtTree) : Prop :=
  AllExprsAll ExprTree.Sound ss ∧ NearestElseAll ss

theorem terminalsAll_append
    (ss ss' : List StmtTree) :
    terminalsAll (ss ++ ss') =
      terminalsAll ss ++ terminalsAll ss' := by
  induction ss with
  | nil =>
      rfl
  | cons s ss ih =>
      rw [List.cons_append, terminalsAll, terminalsAll, ih,
        List.append_assoc]

theorem soundAll_cons
    {s : StmtTree}
    {ss : List StmtTree} :
    SoundAll (s :: ss) ↔ s.Sound ∧ SoundAll ss := by
  unfold SoundAll Sound
  rw [AllExprsAll, NearestElseAll]
  constructor
  · rintro ⟨⟨hExprs, hExprsAll⟩, hElse, hElseAll⟩
    exact ⟨⟨hExprs, hElse⟩, hExprsAll, hElseAll⟩
  · rintro ⟨⟨hExprs, hElse⟩, hExprsAll, hElseAll⟩
    exact ⟨⟨hExprs, hExprsAll⟩, hElse, hElseAll⟩

theorem soundAll_iff
    {ss : List StmtTree} :
    SoundAll ss ↔ ∀ s ∈ ss, s.Sound := by
  induction ss with
  | nil =>
      exact ⟨fun _ s hMem => absurd hMem (by simp),
        fun _ => ⟨trivial, trivial⟩⟩
  | cons s ss ih =>
      rw [soundAll_cons, ih, List.forall_mem_cons]

end StmtTree

/- The terminals of an `if` or a loop up to its predicate. -/
def Head.terminals : Head → List Terminal
| ifHead => [.symbol .kwIf]
| whileHead => [.symbol .kwWhile]
| forHead => [.symbol .kwFor]

namespace TreePurpose

/- The terminals of a statement before the expression. -/
def terminals : TreePurpose → List Terminal
| exprStmt => []
| retValue => [.symbol .kwReturn]
| ifPredicate => Head.ifHead.terminals ++ [.symbol .lparen]
| whilePredicate =>
    Head.whileHead.terminals ++ [.symbol .lparen]
| forInit => Head.forHead.terminals ++ [.symbol .lparen]
| forPredicate init =>
    Head.forHead.terminals ++ [.symbol .lparen] ++
      ExprTree.terminalsOption init ++ [.symbol .semicolon]
| forStep init predicate =>
    Head.forHead.terminals ++ [.symbol .lparen] ++
      ExprTree.terminalsOption init ++
      [.symbol .semicolon] ++
      ExprTree.terminalsOption predicate ++
      [.symbol .semicolon]

/- The expressions before the expression are derived. -/
def Fits : TreePurpose → Prop
| forPredicate init => ∀ d ∈ init, d.Sound
| forStep init predicate =>
    (∀ d ∈ init, d.Sound) ∧ (∀ d ∈ predicate, d.Sound)
| _ => True

end TreePurpose

namespace PendingTree

/- The terminals before the arm or body that is missing. -/
def terminals : PendingTree → List Terminal
| thenArm predicate =>
    TreePurpose.ifPredicate.terminals ++
      predicate.terminals ++ [.symbol .rparen]
| elseArm predicate arm =>
    TreePurpose.ifPredicate.terminals ++
      predicate.terminals ++ [.symbol .rparen] ++
      arm.terminals ++ [.symbol .kwElse]
| whileBody predicate =>
    TreePurpose.whilePredicate.terminals ++
      predicate.terminals ++ [.symbol .rparen]
| forBody init predicate step =>
    (TreePurpose.forStep init predicate).terminals ++
      ExprTree.terminalsOption step ++ [.symbol .rparen]

/- The terminals of everything that waits. -/
def terminalsAll : List PendingTree → List Terminal
| [] => []
| p :: rest => terminalsAll rest ++ p.terminals

/-
  What waits is the beginning of a derivation. An arm that
  an `else` follows does not end in an open `if`.
-/
def Fits : PendingTree → Prop
| thenArm predicate => predicate.Sound
| elseArm predicate arm =>
    predicate.Sound ∧ arm.Sound ∧ arm.endsOpen = false
| whileBody predicate => predicate.Sound
| forBody init predicate step =>
    (∀ d ∈ init, d.Sound) ∧ (∀ d ∈ predicate, d.Sound) ∧
      (∀ d ∈ step, d.Sound)

theorem terminals_wrap
    (p : PendingTree)
    (s : StmtTree) :
    (p.wrap s).terminals = p.terminals ++ s.terminals := by
  cases p <;>
    simp [wrap, terminals, StmtTree.terminals,
      TreePurpose.terminals, Head.terminals]

theorem terminals_wrapAll
    (ps : List PendingTree)
    (s : StmtTree) :
    (wrapAll ps s).terminals =
      terminalsAll ps ++ s.terminals := by
  induction ps generalizing s with
  | nil =>
      rfl
  | cons p ps ih =>
      rw [wrapAll, List.foldl_cons, ← wrapAll, ih,
        terminals_wrap, terminalsAll, List.append_assoc]

theorem sound_wrap
    {p : PendingTree}
    {s : StmtTree}
    (hFits : p.Fits)
    (hSound : s.Sound) :
    (p.wrap s).Sound := by
  obtain ⟨hExprs, hElse⟩ := hSound
  cases p with
  | thenArm predicate | whileBody predicate =>
      exact ⟨⟨hFits, hExprs⟩, hElse⟩
  | elseArm predicate arm =>
      obtain ⟨hPredicate, hArm, hOpen⟩ := hFits
      exact ⟨⟨hPredicate, hArm.1, hExprs⟩, hOpen, hArm.2,
        hElse⟩
  | forBody init predicate step =>
      obtain ⟨hInit, hPredicate, hStep⟩ := hFits
      exact ⟨⟨hInit, hPredicate, hStep, hExprs⟩, hElse⟩

theorem sound_wrapAll
    {ps : List PendingTree}
    {s : StmtTree}
    (hFits : ∀ p ∈ ps, p.Fits)
    (hSound : s.Sound) :
    (wrapAll ps s).Sound := by
  induction ps generalizing s with
  | nil =>
      exact hSound
  | cons p ps ih =>
      obtain ⟨hFirst, hRest⟩ := List.forall_mem_cons.mp hFits
      exact ih hRest (sound_wrap hFirst hSound)

/- An `else` is read after the arm that it follows. -/
theorem terminals_openElse?
    {ps ps' : List PendingTree}
    {s : StmtTree}
    (hOpen : openElse? ps s = some ps') :
    terminalsAll ps' =
      terminalsAll ps ++ s.terminals ++
        [.symbol .kwElse] := by
  fun_induction openElse? ps s with
  | case1 s =>
      cases hOpen
  | case2 predicate rest s =>
      cases hOpen
      simp [terminalsAll, terminals]
  | case3 p rest s hThen ih =>
      rw [ih hOpen, terminals_wrap, terminalsAll]
      simp only [List.append_assoc]

/- The arm that an `else` follows is not open. -/
theorem fits_openElse?
    {ps ps' : List PendingTree}
    {s : StmtTree}
    (hFits : ∀ p ∈ ps, p.Fits)
    (hSound : s.Sound)
    (hClosed : s.endsOpen = false)
    (hOpen : openElse? ps s = some ps') :
    ∀ p ∈ ps', p.Fits := by
  fun_induction openElse? ps s with
  | case1 s =>
      cases hOpen
  | case2 predicate rest s =>
      cases hOpen
      obtain ⟨hFirst, hRest⟩ := List.forall_mem_cons.mp hFits
      exact List.forall_mem_cons.mpr
        ⟨⟨hFirst, hSound, hClosed⟩, hRest⟩
  | case3 p rest s hThen ih =>
      obtain ⟨hFirst, hRest⟩ := List.forall_mem_cons.mp hFits
      refine ih hRest (sound_wrap hFirst hSound) ?_ hOpen
      cases p with
      | thenArm predicate =>
          exact (hThen predicate rfl).elim
      | elseArm _ _ | whileBody _ | forBody _ _ _ =>
          exact hClosed

end PendingTree

namespace TreePosition

/- The terminals of a statement that is not open yet. -/
def terminals : TreePosition → List Terminal
| boundary => []
| afterStmt s => s.terminals
| beforeHead head => head.terminals
| beforeInit => TreePurpose.forInit.terminals
| beforePredicate init =>
    (TreePurpose.forPredicate init).terminals
| beforeStep init predicate =>
    (TreePurpose.forStep init predicate).terminals
| inExpr purpose reading =>
    purpose.terminals ++ reading.terminals

/-
  What has been read of a statement is the beginning of a
  derivation. A statement does not end in an open `if` when
  it has just been finished.
-/
def Fits : TreePosition → Prop
| afterStmt s => s.Sound ∧ s.endsOpen = false
| beforePredicate init =>
    (TreePurpose.forPredicate init).Fits
| beforeStep init predicate =>
    (TreePurpose.forStep init predicate).Fits
| inExpr purpose reading => purpose.Fits ∧ reading.Fits
| _ => True

end TreePosition

/- The terminals of a list of statements that is open. -/
def OpenBlockTree.terminals
    (b : OpenBlockTree) : List Terminal :=
  StmtTree.terminalsAll b.body.reverse ++
    PendingTree.terminalsAll b.pending

/- What is open is the beginning of a derivation. -/
structure OpenBlockTree.Fits
    (b : OpenBlockTree) : Prop where
  pending : ∀ p ∈ b.pending, p.Fits
  body : ∀ s ∈ b.body, s.Sound

namespace TreeParser

/- The innermost list of statements. -/
def list
    (p : TreeParser) : OpenBlockTree :=
  ⟨p.pending, p.body⟩

/- The terminals of the blocks that are open. -/
def blockTerminals : List OpenBlockTree → List Terminal
| [] => []
| b :: rest =>
    blockTerminals rest ++ b.terminals ++ [.symbol .lbrace]

/- The terminals around the position of the reader. -/
def around
    (p : TreeParser) : List Terminal :=
  blockTerminals p.blocks ++ p.list.terminals

/- The terminals that have been read. -/
def terminals
    (p : TreeParser) : List Terminal :=
  p.around ++ p.position.terminals

/- What is around the position fits. -/
structure FitsAround
    (p : TreeParser) : Prop where
  list : p.list.Fits
  blocks : ∀ b ∈ p.blocks, b.Fits

/- What has been read is the beginning of a derivation. -/
structure Fits
    (p : TreeParser) : Prop where
  around : p.FitsAround
  position : p.position.Fits

/-
  A state in which the terminals `xs` have been read, with
  everything as it should be.
-/
def HasRead
    (p : TreeParser)
    (xs : List Terminal) : Prop :=
  p.Fits ∧ p.terminals = xs

variable {p p' : TreeParser}
variable {x : Terminal}

/- Another position in the same surroundings. -/
theorem hasRead_goto
    {position : TreePosition}
    {xs : List Terminal}
    (hAround : p.FitsAround)
    (hPosition : position.Fits)
    (hTerminals : p.around ++ position.terminals = xs) :
    (p.goto position).HasRead xs :=
  ⟨⟨⟨hAround.list, hAround.blocks⟩, hPosition⟩, hTerminals⟩

/- A further statement that waits. -/
theorem hasRead_push
    {frame : PendingTree}
    {xs : List Terminal}
    (hAround : p.FitsAround)
    (hFrame : frame.Fits)
    (hTerminals : p.around ++ frame.terminals = xs) :
    (p.push frame).HasRead xs := by
  refine ⟨⟨⟨⟨?_, hAround.list.body⟩, hAround.blocks⟩,
    trivial⟩, ?_⟩
  · exact List.forall_mem_cons.mpr
      ⟨hFrame, hAround.list.pending⟩
  · rw [← hTerminals]
    simp [terminals, around, push, list,
      OpenBlockTree.terminals, PendingTree.terminalsAll,
      TreePosition.terminals]

/- A finished expression takes its place. -/
theorem useExpr_sound
    {purpose : TreePurpose}
    {d : ExprTree}
    (hAround : p.FitsAround)
    (hPurpose : purpose.Fits)
    (hSound : d.Sound) :
    (p.useExpr d purpose).HasRead
      (p.around ++
        (purpose.terminals ++ d.terminals ++
          [.symbol purpose.terminator])) := by
  have hOption : ∀ e ∈ some d, e.Sound := by
    intro e hMember
    cases hMember
    exact hSound
  cases purpose with
  | exprStmt =>
      exact hasRead_goto hAround ⟨⟨hSound, trivial⟩, rfl⟩ rfl
  | retValue =>
      exact hasRead_goto hAround ⟨⟨hSound, trivial⟩, rfl⟩ rfl
  | ifPredicate =>
      exact hasRead_push hAround hSound rfl
  | whilePredicate =>
      exact hasRead_push hAround hSound rfl
  | forInit =>
      exact hasRead_goto hAround hOption rfl
  | forPredicate init =>
      exact hasRead_goto hAround ⟨hPurpose, hOption⟩ rfl
  | forStep init predicate =>
      exact hasRead_push hAround
        ⟨hPurpose.1, hPurpose.2, hOption⟩ rfl

/- A terminal in an expression is read. -/
theorem stepExpr_sound
    {purpose : TreePurpose}
    {reading : TreeReading}
    (hAround : p.FitsAround)
    (hPurpose : purpose.Fits)
    (hReading : reading.Fits)
    (hStep : p.stepExpr purpose reading x = some p') :
    p'.HasRead
      (p.around ++ (purpose.terminals ++ reading.terminals) ++
        [x]) := by
  unfold stepExpr at hStep
  split at hStep
  · cases hStep
  · rename_i reading' hMore
    cases hStep
    obtain ⟨hReading', hTerminals⟩ :=
      TreeReading.step_more hReading hMore
    refine hasRead_goto hAround ⟨hPurpose, hReading'⟩ ?_
    rw [TreePosition.terminals, hTerminals]
    simp only [List.append_assoc]
  · rename_i d hDone
    obtain ⟨hIsA, hValid, hTerminals⟩ :=
      TreeReading.step_done hReading hDone
    split at hStep
    · rename_i hTerminator
      cases hStep
      rw [hTerminator, ← hTerminals, List.append_assoc]
      exact useExpr_sound hAround hPurpose ⟨hIsA, hValid⟩
    · cases hStep

/- The first terminal of an expression is read. -/
theorem stepExpr_start_sound
    {purpose : TreePurpose}
    (hAround : p.FitsAround)
    (hPurpose : purpose.Fits)
    (hStep :
      p.stepExpr purpose (.operand []) x = some p') :
    p'.HasRead (p.around ++ purpose.terminals ++ [x]) := by
  have hReading : (TreeReading.operand []).Fits := trivial
  have hRead :=
    stepExpr_sound hAround hPurpose hReading hStep
  rwa [TreeReading.terminals, OpenTree.terminalsAll,
    List.append_nil] at hRead

/- The first terminal of a statement is read. -/
theorem stepStmt_sound
    (hAround : p.FitsAround)
    (hStep : p.stepStmt x = some p') :
    p'.HasRead (p.around ++ [x]) := by
  unfold stepStmt at hStep
  split at hStep
  · rename_i hReturn
    cases hStep
    rw [hReturn]
    exact hasRead_goto hAround ⟨trivial, trivial⟩ rfl
  split at hStep
  · rename_i hIf
    cases hStep
    rw [hIf]
    exact hasRead_goto hAround trivial rfl
  split at hStep
  · rename_i hWhile
    cases hStep
    rw [hWhile]
    exact hasRead_goto hAround trivial rfl
  split at hStep
  · rename_i hFor
    cases hStep
    rw [hFor]
    exact hasRead_goto hAround trivial rfl
  split at hStep
  · rename_i hBrace
    cases hStep
    refine ⟨⟨⟨⟨by simp [enterBlock, list],
      by simp [enterBlock, list]⟩, ?_⟩, trivial⟩, ?_⟩
    · exact List.forall_mem_cons.mpr
        ⟨hAround.list, hAround.blocks⟩
    · simp [terminals, around, enterBlock, list, hBrace,
        blockTerminals, OpenBlockTree.terminals,
        PendingTree.terminalsAll, StmtTree.terminalsAll,
        TreePosition.terminals]
  · have hPurpose : TreePurpose.exprStmt.Fits := trivial
    have hRead :=
      stepExpr_start_sound hAround hPurpose hStep
    rwa [TreePurpose.terminals, List.append_nil] at hRead

/- A terminal where a statement may start is read. -/
theorem stepBoundary_sound
    (hAround : p.FitsAround)
    (hStep : p.stepBoundary x = some p') :
    p'.HasRead (p.around ++ [x]) := by
  unfold stepBoundary at hStep
  split at hStep
  · rename_i block blocks hPending hBlocks
    split at hStep
    · rename_i hBrace
      cases hStep
      obtain ⟨hList, hOuter⟩ := hAround
      rw [hBlocks] at hOuter
      obtain ⟨hBlock, hOuter⟩ :=
        List.forall_mem_cons.mp hOuter
      have hBody : StmtTree.SoundAll p.body.reverse :=
        StmtTree.soundAll_iff.mpr fun s hMember =>
          hList.body s (List.mem_reverse.mp hMember)
      refine ⟨⟨⟨⟨hBlock.pending, hBlock.body⟩, hOuter⟩,
        hBody, rfl⟩, ?_⟩
      simp [terminals, around, list, hBrace, hBlocks,
        hPending, blockTerminals, OpenBlockTree.terminals,
        PendingTree.terminalsAll, TreePosition.terminals,
        StmtTree.terminals]
    · exact stepStmt_sound hAround hStep
  · exact stepStmt_sound hAround hStep

/- A finished statement takes its place. -/
theorem fitsAround_settle
    {s : StmtTree}
    (hAround : p.FitsAround)
    (hSound : s.Sound) :
    (p.settle s).FitsAround := by
  refine ⟨⟨by simp [settle, list], ?_⟩, hAround.blocks⟩
  exact List.forall_mem_cons.mpr
    ⟨PendingTree.sound_wrapAll hAround.list.pending hSound,
      hAround.list.body⟩

theorem around_settle
    (p : TreeParser)
    (s : StmtTree) :
    (p.settle s).around = p.around ++ s.terminals := by
  simp [around, settle, list, OpenBlockTree.terminals,
    PendingTree.terminalsAll, StmtTree.terminalsAll_append,
    StmtTree.terminalsAll, PendingTree.terminals_wrapAll]

/- A terminal after a finished statement is read. -/
theorem stepAfter_sound
    {s : StmtTree}
    (hAround : p.FitsAround)
    (hSound : s.Sound)
    (hClosed : s.endsOpen = false)
    (hStep : p.stepAfter s x = some p') :
    p'.HasRead (p.around ++ s.terminals ++ [x]) := by
  have hSettled
      (hStep : (p.settle s).stepBoundary x = some p') :
      p'.HasRead (p.around ++ s.terminals ++ [x]) := by
    rw [← around_settle]
    exact stepBoundary_sound
      (fitsAround_settle hAround hSound) hStep
  unfold stepAfter at hStep
  split at hStep
  · rename_i hElse
    split at hStep
    · rename_i pending hOpen
      cases hStep
      have hPending :=
        PendingTree.fits_openElse? hAround.list.pending
          hSound hClosed hOpen
      have hTerminals :=
        PendingTree.terminals_openElse? hOpen
      refine ⟨⟨⟨⟨hPending, hAround.list.body⟩,
        hAround.blocks⟩, trivial⟩, ?_⟩
      simp [terminals, around, list, hElse, hTerminals,
        OpenBlockTree.terminals, TreePosition.terminals]
    · exact hSettled hStep
  · exact hSettled hStep

/- A terminal is read. -/
theorem step_sound
    (hFits : p.Fits)
    (hStep : p.step x = some p') :
    p'.HasRead (p.terminals ++ [x]) := by
  obtain ⟨hAround, hPosition⟩ := hFits
  have hNone : ∀ d ∈ (none : Option ExprTree), d.Sound := by
    intro d hMember
    cases hMember
  unfold step at hStep
  unfold terminals
  split at hStep
  · rename_i hCase
    rw [hCase, TreePosition.terminals, List.append_nil]
    exact stepBoundary_sound hAround hStep
  · rename_i s hCase
    rw [hCase] at hPosition
    rw [hCase, TreePosition.terminals]
    exact stepAfter_sound hAround hPosition.1 hPosition.2
      hStep
  · rename_i head hCase
    rw [hCase]
    split at hStep
    · rename_i hParen
      rw [hParen, List.append_assoc]
      cases head with
      | ifHead | whileHead =>
          cases hStep
          exact hasRead_goto hAround ⟨trivial, trivial⟩ rfl
      | forHead =>
          cases hStep
          exact hasRead_goto hAround trivial rfl
    · cases hStep
  · rename_i hCase
    rw [hCase]
    split at hStep
    · rename_i hSemicolon
      cases hStep
      rw [hSemicolon, List.append_assoc]
      exact hasRead_goto hAround hNone rfl
    · have hPurpose : TreePurpose.forInit.Fits := trivial
      exact stepExpr_start_sound hAround hPurpose hStep
  · rename_i init hCase
    rw [hCase] at hPosition
    rw [hCase]
    split at hStep
    · rename_i hSemicolon
      cases hStep
      rw [hSemicolon, List.append_assoc]
      exact hasRead_goto hAround ⟨hPosition, hNone⟩
        (by simp [TreePosition.terminals,
          TreePurpose.terminals, ExprTree.terminalsOption])
    · have hPurpose : (TreePurpose.forPredicate init).Fits :=
        hPosition
      exact stepExpr_start_sound hAround hPurpose hStep
  · rename_i init predicate hCase
    rw [hCase] at hPosition
    rw [hCase]
    split at hStep
    · rename_i hParen
      cases hStep
      rw [hParen, List.append_assoc]
      exact hasRead_push hAround
        ⟨hPosition.1, hPosition.2, hNone⟩
        (by simp [TreePosition.terminals,
          PendingTree.terminals, ExprTree.terminalsOption])
    · have hPurpose :
          (TreePurpose.forStep init predicate).Fits :=
        hPosition
      exact stepExpr_start_sound hAround hPurpose hStep
  · rename_i purpose reading hCase
    rw [hCase] at hPosition
    rw [hCase, TreePosition.terminals]
    exact stepExpr_sound hAround hPosition.1 hPosition.2
      hStep

/- What has been read after a run. -/
theorem run_sound
    {xs : List Terminal}
    (hFits : p.Fits)
    (hRun : p.run xs = some p') :
    p'.HasRead (p.terminals ++ xs) := by
  induction xs generalizing p with
  | nil =>
      cases hRun
      exact ⟨hFits, (List.append_nil _).symm⟩
  | cons x xs ih =>
      obtain ⟨p₁, hStep, hRest⟩ :=
        Option.bind_eq_some_iff.mp hRun
      obtain ⟨hFits₁, hTerminals⟩ := step_sound hFits hStep
      have hRead := ih hFits₁ hRest
      rwa [hTerminals, List.append_assoc] at hRead

/- A finished program is derived from what was read. -/
theorem finish_sound
    {ss : List StmtTree}
    (hFits : p.Fits)
    (hFinish : p.finish = some ss) :
    StmtTree.SoundAll ss ∧
      StmtTree.terminalsAll ss = p.terminals := by
  obtain ⟨⟨⟨hPending, hBody⟩, hBlocks⟩, hPosition⟩ := hFits
  unfold finish at hFinish
  split at hFinish
  · rename_i hCase hNone hOuter
    cases hFinish
    refine ⟨StmtTree.soundAll_iff.mpr fun s hMember =>
      hBody s (List.mem_reverse.mp hMember), ?_⟩
    simp [terminals, around, list, hCase, hNone, hOuter,
      blockTerminals, OpenBlockTree.terminals,
      PendingTree.terminalsAll, TreePosition.terminals]
  · rename_i s hCase hOuter
    cases hFinish
    rw [hCase] at hPosition
    have hLast :=
      PendingTree.sound_wrapAll hPending hPosition.1
    refine ⟨StmtTree.soundAll_iff.mpr fun s hMember =>
      List.forall_mem_cons.mpr ⟨hLast, hBody⟩ s
        (List.mem_reverse.mp hMember), ?_⟩
    simp [terminals, around, list, hCase, hOuter,
      blockTerminals, OpenBlockTree.terminals,
      TreePosition.terminals, StmtTree.terminalsAll_append,
      StmtTree.terminalsAll, PendingTree.terminals_wrapAll]
  · cases hFinish

end TreeParser

------------------------------------------------------------
-- Coming to Every Derivation
------------------------------------------------------------

/- The terminals that an expression can start with. -/
def Terminal.startsExpr : Terminal → Bool
| symbol kind =>
    kind = .lparen || kind = .plus || kind = .minus
| number _ => true
| name _ => true

/- An expression starts with such a terminal. -/
theorem ExprTree.terminals_eq_cons
    (d : ExprTree) :
    ∃ x xs,
      d.terminals = x :: xs ∧ x.startsExpr = true := by
  induction d with
  | number s | name s =>
      exact ⟨_, _, rfl, rfl⟩
  | paren d ih =>
      exact ⟨_, _, rfl, rfl⟩
  | signed negative d ih =>
      exact ⟨_, _, rfl, by cases negative <;> rfl⟩
  | chain c l r ihLeft ihRight =>
      obtain ⟨x, xs, hTerminals, hStarts⟩ := ihLeft
      refine ⟨x, xs ++ [.symbol c.kind] ++ r.terminals, ?_,
        hStarts⟩
      rw [terminals, hTerminals]
      rfl
  | assign t v ihTarget ihValue =>
      obtain ⟨x, xs, hTerminals, hStarts⟩ := ihTarget
      refine ⟨x, xs ++ [.symbol .assign] ++ v.terminals, ?_,
        hStarts⟩
      rw [terminals, hTerminals]
      rfl

/- The first terminal of a statement is no `else`. -/
theorem StmtTree.terminals_eq_cons
    (s : StmtTree) :
    ∃ x xs,
      s.terminals = x :: xs ∧ x ≠ .symbol .kwElse := by
  cases s with
  | expr d =>
      obtain ⟨x, xs, hTerminals, hStarts⟩ :=
        d.terminals_eq_cons
      refine ⟨x, xs ++ [.symbol .semicolon], ?_, ?_⟩
      · rw [terminals, hTerminals]
        rfl
      · rintro rfl
        cases hStarts
  | ret _ | ifThen _ _ | ifElse _ _ _ | whileLoop _ _
  | forLoop _ _ _ _ | block _ =>
      exact ⟨_, _, rfl, by decide⟩

/- A complete expression ends before its terminator. -/
theorem TreeReading.step_terminator
    {frames : List OpenTree}
    {d e : ExprTree}
    (purpose : TreePurpose)
    (hCollapse : OpenTree.collapse 0 frames e = (d, [])) :
    (operator frames e).step
        (.symbol purpose.terminator) =
      some (.done d) := by
  cases purpose <;>
    simp [step, stepOperator, close, hCollapse,
      TreePurpose.terminator, Terminal.connective?,
      Connective.ofKind?]

namespace TreeParser

/- A run of two parts. -/
theorem run_append
    (p : TreeParser)
    (xs ys : List Terminal) :
    p.run (xs ++ ys) = (p.run xs).bind (·.run ys) := by
  induction xs generalizing p with
  | nil =>
      rfl
  | cons x xs ih =>
      rw [List.cons_append, run, run, Option.bind_assoc]
      exact congrArg _ (funext ih)

theorem run_singleton
    (p : TreeParser)
    (x : Terminal) :
    p.run [x] = p.step x := by
  rw [run]
  exact Option.bind_fun_some _

/- Two states that the next terminal makes one. -/
theorem run_congr
    {p q : TreeParser}
    {x : Terminal}
    (hStep : p.step x = q.step x)
    (xs : List Terminal) :
    p.run (x :: xs) = q.run (x :: xs) := by
  rw [run, run, hStep]

/- Terminals inside an expression are read there. -/
theorem run_reading
    {purpose : TreePurpose}
    {reading reading' : TreeReading}
    {xs : List Terminal}
    (p : TreeParser)
    (hRun : reading.run xs = some reading') :
    (p.goto (.inExpr purpose reading)).run xs =
      some (p.goto (.inExpr purpose reading')) := by
  induction xs generalizing reading with
  | nil =>
      cases hRun
      rfl
  | cons x xs ih =>
      rw [TreeReading.run] at hRun
      split at hRun
      · rename_i reading₁ hStep
        have hMore :
            (p.goto (.inExpr purpose reading)).step x =
              some (p.goto (.inExpr purpose reading₁)) := by
          simp only [step, goto, stepExpr, hStep]
        rw [run, hMore]
        exact ih hRun
      · cases hRun

/- An expression is read up to its terminator. -/
theorem run_expr
    {d : ExprTree}
    (p : TreeParser)
    (purpose : TreePurpose)
    (hSound : d.Sound) :
    (p.goto (.inExpr purpose (.operand []))).run
        (d.terminals ++ [.symbol purpose.terminator]) =
      some (p.useExpr d purpose) := by
  obtain ⟨frames, e, hRun, hCollapse⟩ :=
    TreeReading.run_start hSound.1 hSound.2
  have hDone :=
    TreeReading.step_terminator purpose hCollapse
  rw [run_append, run_reading p hRun, Option.bind_some,
    run_singleton]
  simp only [step, goto, stepExpr, hDone, if_true]
  cases purpose <;> rfl

/- Only a closing brace is not part of a statement. -/
theorem stepBoundary_eq_stepStmt
    {x : Terminal}
    (p : TreeParser)
    (hBrace : x ≠ .symbol .rbrace) :
    p.stepBoundary x = p.stepStmt x := by
  unfold stepBoundary
  split
  · rw [if_neg hBrace]
  · rfl

/- The positions where an expression can start. -/
inductive Opens : TreePosition → TreePurpose → Prop where
  | exprStmt : Opens .boundary .exprStmt
  | forInit : Opens .beforeInit .forInit
  | forPredicate (init : Option ExprTree) :
      Opens (.beforePredicate init) (.forPredicate init)
  | forStep (init predicate : Option ExprTree) :
      Opens (.beforeStep init predicate)
        (.forStep init predicate)

/- An expression starts at such a position. -/
theorem step_opens
    {position : TreePosition}
    {purpose : TreePurpose}
    {x : Terminal}
    (p : TreeParser)
    (hOpens : Opens position purpose)
    (hStarts : x.startsExpr = true) :
    (p.goto position).step x =
      (p.goto (.inExpr purpose (.operand []))).step x := by
  have hOther (k : Kind)
      (hKind : (Terminal.symbol k).startsExpr = false) :
      x ≠ .symbol k := by
    rintro rfl
    rw [hStarts] at hKind
    cases hKind
  cases hOpens with
  | exprStmt =>
      show (p.goto .boundary).stepBoundary x = _
      rw [stepBoundary_eq_stepStmt _ (hOther .rbrace rfl)]
      simp only [stepStmt, hOther .kwReturn rfl,
        hOther .kwIf rfl, hOther .kwWhile rfl,
        hOther .kwFor rfl, hOther .lbrace rfl, if_false]
      rfl
  | forInit =>
      simp [step, goto, hOther .semicolon rfl]
      rfl
  | forPredicate init =>
      simp [step, goto, hOther .semicolon rfl]
      rfl
  | forStep init predicate =>
      simp [step, goto, hOther .rparen rfl]
      rfl

/- An expression is read where it can start. -/
theorem run_opened
    {position : TreePosition}
    {purpose : TreePurpose}
    {d : ExprTree}
    (p : TreeParser)
    (hOpens : Opens position purpose)
    (hSound : d.Sound) :
    (p.goto position).run
        (d.terminals ++ [.symbol purpose.terminator]) =
      some (p.useExpr d purpose) := by
  have hRun := run_expr p purpose hSound
  obtain ⟨x, xs, hTerminals, hStarts⟩ := d.terminals_eq_cons
  rw [hTerminals, List.cons_append] at hRun ⊢
  rw [run_congr (step_opens p hOpens hStarts)]
  exact hRun

/- The word that a statement starts with is read. -/
theorem run_keyword
    (p : TreeParser)
    (head : Head) :
    (p.goto .boundary).run head.terminals =
      some (p.goto (.beforeHead head)) := by
  cases head <;>
    rw [Head.terminals, run_singleton, step, goto,
      stepBoundary_eq_stepStmt _ (by decide)] <;>
    rfl

/- A statement is read up to the end of its predicate. -/
theorem run_predicate
    {d : ExprTree}
    (p : TreeParser)
    (purpose : TreePurpose)
    (hStart :
      (p.goto .boundary).run purpose.terminals =
        some (p.goto (.inExpr purpose (.operand []))))
    (hSound : d.Sound) :
    (p.goto .boundary).run
        (purpose.terminals ++ d.terminals ++
          [.symbol purpose.terminator]) =
      some (p.useExpr d purpose) := by
  rw [List.append_assoc, run_append, hStart,
    Option.bind_some]
  exact run_expr p purpose hSound

/- The head of an `if` is read up to its first arm. -/
theorem run_thenArm
    {d : ExprTree}
    (p : TreeParser)
    (hSound : d.Sound) :
    (p.goto .boundary).run
        (PendingTree.thenArm d).terminals =
      some (p.push (.thenArm d)) := by
  refine run_predicate p .ifPredicate ?_ hSound
  rw [TreePurpose.terminals, run_append, run_keyword]
  rfl

/- The head of a `while` is read up to its body. -/
theorem run_whileBody
    {d : ExprTree}
    (p : TreeParser)
    (hSound : d.Sound) :
    (p.goto .boundary).run
        (PendingTree.whileBody d).terminals =
      some (p.push (.whileBody d)) := by
  refine run_predicate p .whilePredicate ?_ hSound
  rw [TreePurpose.terminals, run_append, run_keyword]
  rfl

/- The head of a `for` is read up to its body. -/
theorem run_forBody
    {i c n : Option ExprTree}
    (p : TreeParser)
    (hInit : ∀ d ∈ i, d.Sound)
    (hPredicate : ∀ d ∈ c, d.Sound)
    (hStep : ∀ d ∈ n, d.Sound) :
    (p.goto .boundary).run
        (PendingTree.forBody i c n).terminals =
      some (p.push (.forBody i c n)) := by
  have hHead :
      (p.goto .boundary).run TreePurpose.forInit.terminals =
        some (p.goto .beforeInit) := by
    rw [TreePurpose.terminals, run_append, run_keyword]
    rfl
  have hFirst :
      (p.goto .beforeInit).run
          (ExprTree.terminalsOption i ++
            [.symbol .semicolon]) =
        some (p.goto (.beforePredicate i)) := by
    cases i with
    | none =>
        rfl
    | some d =>
        exact run_opened p .forInit (hInit d rfl)
  have hSecond :
      (p.goto (.beforePredicate i)).run
          (ExprTree.terminalsOption c ++
            [.symbol .semicolon]) =
        some (p.goto (.beforeStep i c)) := by
    cases c with
    | none =>
        rfl
    | some d =>
        exact run_opened p (.forPredicate i)
          (hPredicate d rfl)
  have hThird :
      (p.goto (.beforeStep i c)).run
          (ExprTree.terminalsOption n ++
            [.symbol .rparen]) =
        some (p.push (.forBody i c n)) := by
    cases n with
    | none =>
        rfl
    | some d =>
        exact run_opened p (.forStep i c) (hStep d rfl)
  have hTerminals :
      (PendingTree.forBody i c n).terminals =
        TreePurpose.forInit.terminals ++
          ((ExprTree.terminalsOption i ++
            [.symbol .semicolon]) ++
          ((ExprTree.terminalsOption c ++
            [.symbol .semicolon]) ++
          (ExprTree.terminalsOption n ++
            [.symbol .rparen]))) := by
    simp [PendingTree.terminals, TreePurpose.terminals]
  rw [hTerminals, run_append, hHead, Option.bind_some,
    run_append, hFirst, Option.bind_some, run_append,
    hSecond, Option.bind_some, hThird]

/-
  The statement `s` has just been read. Statements that it
  ends with may still wait for an `else`.
-/
def Completes
    (p : TreeParser)
    (s : StmtTree)
    (p' : TreeParser) : Prop :=
  ∃ s' opened,
    p' =
      { p with
        position := .afterStmt s'
        pending := opened ++ p.pending } ∧
    PendingTree.wrapAll opened s' = s ∧
    (s.endsOpen = false →
      ∀ rest,
        PendingTree.openElse? (opened ++ rest) s' =
          PendingTree.openElse? rest s)

/- A statement without an arm or a body is complete. -/
theorem completes_goto
    (p : TreeParser)
    (s : StmtTree) :
    p.Completes s (p.goto (.afterStmt s)) :=
  ⟨s, [], rfl, rfl, fun _ _ => rfl⟩

/- A statement is complete with what it waited for. -/
theorem Completes.wrap
    {p p' : TreeParser}
    {frame : PendingTree}
    {s : StmtTree}
    (hCompletes : (p.push frame).Completes s p') :
    p.Completes (frame.wrap s) p' := by
  obtain ⟨s', opened, rfl, hWrap, hElse⟩ := hCompletes
  refine ⟨s', opened ++ [frame], ?_, ?_, ?_⟩
  · simp [push]
  · rw [← hWrap, PendingTree.wrapAll, List.foldl_append]
    rfl
  · intro hClosed rest
    rw [List.append_assoc]
    cases frame with
    | thenArm predicate =>
        cases hClosed
    | elseArm _ _ | whileBody _ | forBody _ _ _ =>
        exact hElse hClosed _

/- An `else` belongs to the `if` whose arm is complete. -/
theorem Completes.step_else
    {p p' : TreeParser}
    {d : ExprTree}
    {s : StmtTree}
    (hCompletes : (p.push (.thenArm d)).Completes s p')
    (hClosed : s.endsOpen = false) :
    p'.step (.symbol .kwElse) =
      some (p.push (.elseArm d s)) := by
  obtain ⟨s', opened, rfl, -, hElse⟩ := hCompletes
  have hOpen := hElse hClosed (.thenArm d :: p.pending)
  simp only [step, stepAfter, push, hOpen, if_true,
    PendingTree.openElse?]

/-
  Two states that any terminal but an `else` makes one, and
  that hold the same program at the end.
-/
def Settles
    (p q : TreeParser) : Prop :=
  (∀ x, x ≠ .symbol .kwElse → p.step x = q.step x) ∧
    p.finish = q.finish

/- A statement in a list is put in its place. -/
theorem Completes.settles
    {p p' : TreeParser}
    {s : StmtTree}
    (hPending : p.pending = [])
    (hCompletes : p.Completes s p') :
    p'.Settles
      { p with position := .boundary, body := s :: p.body } := by
  obtain ⟨s', opened, rfl, rfl, -⟩ := hCompletes
  constructor
  · intro x hElse
    simp [step, stepAfter, settle, hElse, hPending]
  · cases hBlocks : p.blocks <;>
      simp [finish, hPending]

mutual

/- Reading comes to every statement. -/
theorem run_stmt
    (p : TreeParser) :
    (s : StmtTree) →
    s.Sound →
    ∃ p',
      (p.goto .boundary).run s.terminals = some p' ∧
      p.Completes s p'
| .ret d, hSound => by
    refine ⟨_, ?_, completes_goto p (.ret d)⟩
    refine run_predicate p .retValue ?_ hSound.1
    rw [TreePurpose.terminals, run_singleton, step, goto,
      stepBoundary_eq_stepStmt _ (by decide)]
    rfl
| .expr d, hSound => by
    refine ⟨_, ?_, completes_goto p (.expr d)⟩
    exact run_opened p .exprStmt hSound.1
| .ifThen d s, hSound => by
    obtain ⟨⟨hPredicate, hExprs⟩, hElse⟩ := hSound
    obtain ⟨p', hRun, hCompletes⟩ :=
      run_stmt (p.push (.thenArm d)) s ⟨hExprs, hElse⟩
    refine ⟨p', ?_, hCompletes.wrap⟩
    show (p.goto .boundary).run
      (PendingTree.wrap (.thenArm d) s).terminals = some p'
    rw [PendingTree.terminals_wrap, run_append,
      run_thenArm p hPredicate, Option.bind_some]
    exact hRun
| .whileLoop d s, hSound => by
    obtain ⟨⟨hPredicate, hExprs⟩, hElse⟩ := hSound
    obtain ⟨p', hRun, hCompletes⟩ :=
      run_stmt (p.push (.whileBody d)) s ⟨hExprs, hElse⟩
    refine ⟨p', ?_, hCompletes.wrap⟩
    show (p.goto .boundary).run
      (PendingTree.wrap (.whileBody d) s).terminals = some p'
    rw [PendingTree.terminals_wrap, run_append,
      run_whileBody p hPredicate, Option.bind_some]
    exact hRun
| .forLoop i c n s, hSound => by
    obtain ⟨⟨hInit, hPredicate, hStep, hExprs⟩, hElse⟩ :=
      hSound
    obtain ⟨p', hRun, hCompletes⟩ :=
      run_stmt (p.push (.forBody i c n)) s ⟨hExprs, hElse⟩
    refine ⟨p', ?_, hCompletes.wrap⟩
    show (p.goto .boundary).run
      (PendingTree.wrap (.forBody i c n) s).terminals =
        some p'
    rw [PendingTree.terminals_wrap, run_append,
      run_forBody p hInit hPredicate hStep,
      Option.bind_some]
    exact hRun
| .ifElse d s s', hSound => by
    obtain ⟨⟨hPredicate, hExprs, hExprs'⟩, hClosed, hElse,
      hElse'⟩ := hSound
    obtain ⟨p₁, hRun₁, hCompletes₁⟩ :=
      run_stmt (p.push (.thenArm d)) s ⟨hExprs, hElse⟩
    obtain ⟨p', hRun', hCompletes'⟩ :=
      run_stmt (p.push (.elseArm d s)) s' ⟨hExprs', hElse'⟩
    refine ⟨p', ?_, hCompletes'.wrap⟩
    have hTerminals :
        (StmtTree.ifElse d s s').terminals =
          (PendingTree.thenArm d).terminals ++
            (s.terminals ++
              ([.symbol .kwElse] ++ s'.terminals)) := by
      simp [StmtTree.terminals, PendingTree.terminals,
        TreePurpose.terminals, Head.terminals]
    have hArm : (p.push (.thenArm d)).run s.terminals =
        some p₁ :=
      hRun₁
    rw [hTerminals, run_append, run_thenArm p hPredicate,
      Option.bind_some, run_append, hArm, Option.bind_some,
      run_append, run_singleton,
      hCompletes₁.step_else hClosed, Option.bind_some]
    exact hRun'
| .block ss, hSound => by
    obtain ⟨p', hRun, hSettles, -⟩ :=
      run_stmts p.enterBlock ss hSound rfl
    refine ⟨_, ?_, completes_goto p (.block ss)⟩
    have hOpen :
        (p.goto .boundary).run [.symbol .lbrace] =
          some p.enterBlock := by
      rw [run_singleton, step, goto,
        stepBoundary_eq_stepStmt _ (by decide)]
      rfl
    have hBody :
        p.enterBlock.run (StmtTree.terminalsAll ss) =
          some p' :=
      hRun
    have hClose :
        p'.step (.symbol .rbrace) =
          some (p.goto (.afterStmt (.block ss))) := by
      rw [hSettles _ (by decide)]
      simp [step, stepBoundary, enterBlock, goto]
    rw [StmtTree.terminals, List.append_assoc, run_append,
      hOpen, Option.bind_some, run_append, hBody,
      Option.bind_some, run_singleton, hClose]

/- Reading comes to every list of statements. -/
theorem run_stmts
    (p : TreeParser) :
    (ss : List StmtTree) →
    StmtTree.SoundAll ss →
    p.pending = [] →
    ∃ p',
      (p.goto .boundary).run (StmtTree.terminalsAll ss) =
        some p' ∧
      p'.Settles
        { p with
          position := .boundary
          body := ss.reverse ++ p.body }
| [], hSound, hPending => by
    exact ⟨_, rfl, fun _ _ => rfl, rfl⟩
| s :: ss, hSound, hPending => by
    obtain ⟨hFirst, hRest⟩ := StmtTree.soundAll_cons.mp hSound
    obtain ⟨p₁, hRun₁, hCompletes⟩ := run_stmt p s hFirst
    have hSettles := hCompletes.settles hPending
    obtain ⟨p', hRun', hSettles'⟩ :=
      run_stmts
        { p with
          position := .boundary
          body := s :: p.body } ss hRest hPending
    rw [StmtTree.terminalsAll, run_append, hRun₁,
      Option.bind_some]
    cases ss with
    | nil =>
        exact ⟨p₁, rfl, hSettles⟩
    | cons s₁ ss₁ =>
        refine ⟨p', ?_, ?_⟩
        · obtain ⟨x, xs, hTerminals, hElse⟩ :=
            s₁.terminals_eq_cons
          rw [StmtTree.terminalsAll, hTerminals,
            List.cons_append] at hRun' ⊢
          rw [run_congr (hSettles.1 x hElse)]
          exact hRun'
        · simpa using hSettles'

end

end TreeParser

namespace StmtTree

mutual

/- A condition on expressions that has two parts. -/
theorem allExprs_iff_and
    {P Q R : ExprTree → Prop}
    (hParts : ∀ d, R d ↔ P d ∧ Q d) :
    (s : StmtTree) →
    (s.AllExprs R ↔ s.AllExprs P ∧ s.AllExprs Q)
| .ret d | .expr d => by
    exact hParts d
| .ifThen d s | .whileLoop d s => by
    have hBody := allExprs_iff_and hParts s
    simp only [AllExprs, hParts, hBody]
    exact and_and_and_comm
| .ifElse d s s' => by
    have hThen := allExprs_iff_and hParts s
    have hElse := allExprs_iff_and hParts s'
    simp only [AllExprs, hParts, hThen, hElse]
    grind
| .forLoop i c n s => by
    have hBody := allExprs_iff_and hParts s
    simp only [AllExprs, hParts, hBody]
    grind
| .block ss => by
    exact allExprsAll_iff_and hParts ss

theorem allExprsAll_iff_and
    {P Q R : ExprTree → Prop}
    (hParts : ∀ d, R d ↔ P d ∧ Q d) :
    (ss : List StmtTree) →
    (AllExprsAll R ss ↔
      AllExprsAll P ss ∧ AllExprsAll Q ss)
| [] => by
    simp [AllExprsAll]
| s :: ss => by
    have hFirst := allExprs_iff_and hParts s
    have hRest := allExprsAll_iff_and hParts ss
    simp only [AllExprsAll, hFirst, hRest]
    exact and_and_and_comm

end

end StmtTree

/- What a derivation of a program is. -/
theorem Program.isDerivation_iff
    {ss : List StmtTree}
    {xs : List Terminal} :
    IsDerivation ss xs ↔
      StmtTree.SoundAll ss ∧
        StmtTree.terminalsAll ss = xs := by
  have hParts (d : ExprTree) :
      d.Sound ↔ d.Derives .assign ∧ d.Valid := by
    rw [ExprTree.derives_iff]
    exact Iff.rfl
  unfold StmtTree.SoundAll
  rw [StmtTree.allExprsAll_iff_and hParts]
  constructor
  · rintro ⟨hDerives, hValid, hElse, hTerminals⟩
    exact ⟨⟨⟨hDerives, hValid⟩, hElse⟩, hTerminals⟩
  · rintro ⟨⟨⟨hDerives, hValid⟩, hElse⟩, hTerminals⟩
    exact ⟨hDerives, hValid, hElse, hTerminals⟩

/-
  The reader gives exactly the derivations of what it has
  read, so there is at most one.
-/
theorem StmtTree.ofTerminals?_eq_some_iff
    {xs : List Terminal}
    {ss : List StmtTree} :
    ofTerminals? xs = some ss ↔
      Program.IsDerivation ss xs := by
  rw [Program.isDerivation_iff]
  constructor
  · intro hRead
    obtain ⟨p, hRun, hFinish⟩ :=
      Option.bind_eq_some_iff.mp hRead
    have hStart : TreeParser.start.Fits :=
      ⟨⟨⟨by simp [TreeParser.start, TreeParser.list],
        by simp [TreeParser.start, TreeParser.list]⟩,
        by simp [TreeParser.start]⟩, trivial⟩
    obtain ⟨hFits, hTerminals⟩ :=
      TreeParser.run_sound hStart hRun
    obtain ⟨hSound, hRead⟩ :=
      TreeParser.finish_sound hFits hFinish
    exact ⟨hSound, hRead.trans hTerminals⟩
  · rintro ⟨hSound, rfl⟩
    obtain ⟨p, hRun, -, hFinish⟩ :=
      TreeParser.run_stmts .start ss hSound rfl
    have hStart :
        TreeParser.start.run (terminalsAll ss) = some p :=
      hRun
    rw [ofTerminals?, hStart, Option.bind_some, hFinish]
    simp [TreeParser.finish, TreeParser.start]

end WordLang
