import WordLang.Proofs.TreeParser

/-
  This file completes what has been read of a program.

  Every state of the reader is the beginning of a program.
  The terminals that complete it depend only on what is
  open: a number where an operand is missing, a parenthesis
  for each one that is open, an empty block where an arm or
  a body is missing, and a brace for each open block. Where
  an assignment may start, they are the same for all that
  may stand there.

  Key definitions include:
    * `WordLang.OpenTree.closers`
    * `WordLang.TreePurpose.closers`
    * `WordLang.TreePosition.closers`
    * `WordLang.TreeParser.closers`
    * `WordLang.Terminal.isPlain`

  Key theorems include:
    * `WordLang.OpenTree.exists_sound`
    * `WordLang.TreeParser.exists_derivation`
    * `WordLang.TreeParser.exists_derivation_of_expr`
    * `WordLang.TreeParser.isPlain_of_mem_closers`
-/

namespace WordLang

------------------------------------------------------------
-- Tokens
------------------------------------------------------------

namespace Terminal

/- A token for a terminal. -/
def token : Terminal → Token
| symbol kind => ⟨kind, "", .nowhere⟩
| number s => ⟨.number, s, .nowhere⟩
| name s => ⟨.identifier, s, .nowhere⟩

/- A terminal that is no name and not the end of input. -/
def isPlain : Terminal → Bool
| symbol kind =>
    kind ≠ .eof && kind ≠ .number && kind ≠ .identifier
| number _ => true
| name _ => false

variable {x : Terminal}

end Terminal

------------------------------------------------------------
-- Expressions
------------------------------------------------------------

namespace OpenTree

/- What is open, with its operand. -/
def fill
    (d : ExprTree) :
    OpenTree → ExprTree
| sign negative => .signed negative d
| paren => .paren d
| chain c l => .chain c l d
| assign t => .assign t d

/- What has to follow the operand. -/
def closer : OpenTree → List Terminal
| paren => [.symbol .rparen]
| _ => []

/- What has to follow the operand of everything open. -/
def closers
    (frames : List OpenTree) : List Terminal :=
  frames.flatMap closer

theorem isPlain_closers
    (frames : List OpenTree) :
    (closers frames).all Terminal.isPlain = true := by
  induction frames with
  | nil =>
      rfl
  | cons f rest ih =>
      rw [closers, List.flatMap_cons, List.all_append]
      exact Bool.and_eq_true_iff.mpr
        ⟨by cases f <;> rfl, ih⟩

theorem terminals_fill
    (f : OpenTree)
    (d : ExprTree) :
    (f.fill d).terminals =
      f.terminals ++ d.terminals ++ f.closer := by
  cases f <;>
    simp [fill, closer, terminals, ExprTree.terminals]

/- Nothing asks for more than a primary. -/
theorem need_le
    (frames : List OpenTree) :
    need frames ≤ 6 := by
  match frames with
  | [] | .paren :: rest | .assign t :: rest =>
      exact Nat.zero_le 6
  | .sign negative :: rest =>
      exact Nat.le_refl 6
  | .chain c l :: rest =>
      have hBounds := c.rank_level_bounds
      simp only [need]
      omega

/- What is open becomes an operand of what is around it. -/
theorem fits_fill
    {f : OpenTree}
    {rest : List OpenTree}
    {d : ExprTree}
    (hFits : Fits (f :: rest))
    (hIsA : d.IsA (need (f :: rest)))
    (hValid : d.Valid) :
    Fits rest ∧ (f.fill d).IsA (need rest) ∧
      (f.fill d).Valid := by
  cases f with
  | sign negative =>
      exact ⟨hFits.2, ⟨hFits.1, hIsA⟩, hValid⟩
  | paren =>
      exact ⟨hFits, ⟨need_le rest, hIsA⟩, hValid⟩
  | chain c l =>
      rcases hFits with ⟨hLeft, hLeftValid, hNeed, hRest⟩
      exact ⟨hRest, ⟨hNeed, hLeft, hIsA⟩,
        hLeftValid, hValid⟩
  | assign t =>
      rcases hFits with
        ⟨hTarget, hPlace, hTargetValid, hNeed, hRest⟩
      exact ⟨hRest, ⟨hNeed, hTarget, hIsA⟩,
        hPlace, hTargetValid, hValid⟩

/-
  An operand that binds strongly enough completes what is
  open, once the parentheses are closed.
-/
theorem exists_sound
    {frames : List OpenTree}
    {d : ExprTree}
    (hFits : Fits frames)
    (hIsA : d.IsA (need frames))
    (hValid : d.Valid) :
    ∃ e : ExprTree,
      e.Sound ∧
      e.terminals =
        terminalsAll frames ++ d.terminals ++
          closers frames := by
  induction frames generalizing d with
  | nil =>
      exact ⟨d, ⟨hIsA, hValid⟩, (List.append_nil _).symm⟩
  | cons f rest ih =>
      rcases fits_fill hFits hIsA hValid with
        ⟨hRest, hFilled, hFilledValid⟩
      rcases ih hRest hFilled hFilledValid with
        ⟨e, hSound, hTerminals⟩
      refine ⟨e, hSound, ?_⟩
      rw [hTerminals, terminals_fill]
      simp [terminalsAll, closers]

end OpenTree

/- An operand for where one is missing. -/
def ExprTree.zero : ExprTree :=
  .number "0"

theorem ExprTree.isA_zero
    {n : Nat}
    (hPrimary : n ≤ 6) :
    zero.IsA n :=
  hPrimary

theorem ExprTree.valid_zero :
    zero.Valid := by
  rw [zero, Valid]
  rfl

namespace TreeReading

/- What completes an expression. -/
def closers : TreeReading → List Terminal
| operand frames =>
    ExprTree.zero.terminals ++ OpenTree.closers frames
| operator frames _ => OpenTree.closers frames

theorem isPlain_closers
    (r : TreeReading) :
    r.closers.all Terminal.isPlain = true := by
  cases r <;> exact OpenTree.isPlain_closers _

/- An expression that has been begun can be completed. -/
theorem exists_sound
    {r : TreeReading}
    (hFits : r.Fits) :
    ∃ e : ExprTree,
      e.Sound ∧ e.terminals = r.terminals ++ r.closers := by
  cases r with
  | operand frames =>
      have hZero :=
        ExprTree.isA_zero (OpenTree.need_le frames)
      rcases OpenTree.exists_sound hFits hZero
          ExprTree.valid_zero
        with ⟨e, hSound, hTerminals⟩
      refine ⟨e, hSound, ?_⟩
      rw [hTerminals, List.append_assoc]
      rfl
  | operator frames d =>
      rcases hFits with ⟨hFrames, hNeed, hIsA, hValid⟩
      exact OpenTree.exists_sound hFrames
        (hIsA.mono hNeed) hValid

end TreeReading

------------------------------------------------------------
-- Statements
------------------------------------------------------------

/- A block with nothing in it. -/
def StmtTree.emptyBlock : StmtTree :=
  .block []

theorem StmtTree.sound_emptyBlock :
    emptyBlock.Sound :=
  ⟨trivial, trivial⟩

namespace TreePurpose

/- What completes a statement after its expression. -/
def closers : TreePurpose → List Terminal
| exprStmt | retValue => [.symbol .semicolon]
| ifPredicate | whilePredicate | forStep _ _ =>
    .symbol .rparen :: StmtTree.emptyBlock.terminals
| forInit =>
    [.symbol .semicolon, .symbol .semicolon,
      .symbol .rparen] ++ StmtTree.emptyBlock.terminals
| forPredicate _ =>
    [.symbol .semicolon, .symbol .rparen] ++
      StmtTree.emptyBlock.terminals

theorem isPlain_closers
    (u : TreePurpose) :
    u.closers.all Terminal.isPlain = true := by
  cases u <;> rfl

/- A statement that has got its expression, completed. -/
def complete
    (d : ExprTree) :
    TreePurpose → StmtTree
| exprStmt => .expr d
| retValue => .ret d
| ifPredicate => .ifThen d .emptyBlock
| whilePredicate => .whileLoop d .emptyBlock
| forInit => .forLoop (some d) none none .emptyBlock
| forPredicate i => .forLoop i (some d) none .emptyBlock
| forStep i c => .forLoop i c (some d) .emptyBlock

theorem terminals_complete
    (u : TreePurpose)
    (d : ExprTree) :
    (u.complete d).terminals =
      u.terminals ++ d.terminals ++ u.closers := by
  cases u <;>
    simp [complete, closers, terminals, StmtTree.terminals,
      Head.terminals, ExprTree.terminalsOption]

theorem sound_complete
    {u : TreePurpose}
    {d : ExprTree}
    (hFits : u.Fits)
    (hSound : d.Sound) :
    (u.complete d).Sound := by
  cases u <;>
    simp_all [complete, StmtTree.Sound, StmtTree.AllExprs,
      StmtTree.NearestElse, StmtTree.emptyBlock,
      StmtTree.AllExprsAll, StmtTree.NearestElseAll, Fits]

end TreePurpose

namespace Head

/- What the first expression of a head is for. -/
def purpose : Head → TreePurpose
| ifHead => .ifPredicate
| whileHead => .whilePredicate
| forHead => .forInit

theorem purpose_fits
    (head : Head) :
    head.purpose.Fits := by
  cases head <;> trivial

theorem terminals_purpose
    (head : Head) :
    head.purpose.terminals =
      head.terminals ++ [.symbol .lparen] := by
  cases head <;> rfl

end Head

namespace TreePosition

/- What completes a statement. -/
def closers : TreePosition → List Terminal
| boundary => StmtTree.emptyBlock.terminals
| afterStmt _ => []
| beforeHead head =>
    .symbol .lparen ::
      (ExprTree.zero.terminals ++ head.purpose.closers)
| beforeInit =>
    ExprTree.zero.terminals ++ TreePurpose.forInit.closers
| beforePredicate i =>
    ExprTree.zero.terminals ++
      (TreePurpose.forPredicate i).closers
| beforeStep i c =>
    ExprTree.zero.terminals ++
      (TreePurpose.forStep i c).closers
| inExpr u r => r.closers ++ u.closers

theorem isPlain_closers
    (position : TreePosition) :
    position.closers.all Terminal.isPlain = true := by
  cases position with
  | boundary | afterStmt s =>
      rfl
  | beforeHead head =>
      exact head.purpose.isPlain_closers
  | beforeInit | beforePredicate i | beforeStep i c =>
      exact TreePurpose.isPlain_closers _
  | inExpr u r =>
      rw [closers, List.all_append, r.isPlain_closers,
        u.isPlain_closers]
      rfl

/- A statement that has been begun can be completed. -/
theorem exists_sound
    {position : TreePosition}
    (hFits : position.Fits) :
    ∃ s : StmtTree,
      s.Sound ∧
      s.terminals =
        position.terminals ++ position.closers := by
  have hZero : ExprTree.zero.Sound :=
    ⟨ExprTree.isA_zero (Nat.zero_le 6), ExprTree.valid_zero⟩
  -- Most positions stand just before an expression.
  have hBefore
      {u : TreePurpose}
      (hFits : u.Fits) :
      ∃ s : StmtTree,
        s.Sound ∧
        s.terminals =
          u.terminals ++
            (ExprTree.zero.terminals ++ u.closers) := by
    refine ⟨u.complete .zero,
      TreePurpose.sound_complete hFits hZero, ?_⟩
    rw [TreePurpose.terminals_complete, List.append_assoc]
  cases position with
  | boundary =>
      exact ⟨.emptyBlock, StmtTree.sound_emptyBlock, rfl⟩
  | afterStmt s =>
      exact ⟨s, hFits.1, (List.append_nil _).symm⟩
  | beforeHead head =>
      rcases hBefore head.purpose_fits with
        ⟨s, hSound, hTerminals⟩
      refine ⟨s, hSound, ?_⟩
      rw [hTerminals, head.terminals_purpose,
        List.append_assoc]
      rfl
  | beforeInit =>
      exact hBefore (u := .forInit) trivial
  | beforePredicate i =>
      exact hBefore (u := .forPredicate i) hFits
  | beforeStep i c =>
      exact hBefore (u := .forStep i c) hFits
  | inExpr u r =>
      rcases TreeReading.exists_sound hFits.2 with
        ⟨d, hSound, hTerminals⟩
      refine ⟨u.complete d,
        TreePurpose.sound_complete hFits.1 hSound, ?_⟩
      rw [TreePurpose.terminals_complete, hTerminals]
      simp only [terminals, closers, List.append_assoc]

end TreePosition

------------------------------------------------------------
-- Programs
------------------------------------------------------------

/- Statements after the ones that are finished. -/
theorem StmtTree.soundAll_append
    {ss ss' : List StmtTree}
    (hFirst : ∀ s ∈ ss, s.Sound)
    (hSecond : SoundAll ss') :
    SoundAll (ss.reverse ++ ss') := by
  rw [soundAll_iff] at hSecond ⊢
  intro s hMem
  rcases List.mem_append.mp hMem with hLeft | hRight
  · exact hFirst s (List.mem_reverse.mp hLeft)
  · exact hSecond s hRight

/- A statement completes the list that it stands in. -/
theorem OpenBlockTree.exists_soundAll
    {b : OpenBlockTree}
    {s : StmtTree}
    (hFits : b.Fits)
    (hSound : s.Sound) :
    ∃ ss,
      StmtTree.SoundAll ss ∧
      StmtTree.terminalsAll ss =
        b.terminals ++ s.terminals := by
  have hWrapped :=
    PendingTree.sound_wrapAll hFits.pending hSound
  refine ⟨b.body.reverse ++
      [PendingTree.wrapAll b.pending s],
    StmtTree.soundAll_append hFits.body
      (StmtTree.soundAll_iff.mpr (by simpa using hWrapped)),
    ?_⟩
  simp [StmtTree.terminalsAll_append,
    StmtTree.terminalsAll, PendingTree.terminals_wrapAll,
    terminals]

namespace TreeParser

/- A brace for each block that is open. -/
def braces
    (p : TreeParser) : List Terminal :=
  List.replicate p.blocks.length (.symbol .rbrace)

/- What completes a program. -/
def closers
    (p : TreeParser) : List Terminal :=
  p.position.closers ++ p.braces

/- Braces complete the blocks that are open. -/
theorem exists_soundAll_blocks
    {blocks : List OpenBlockTree}
    {ss : List StmtTree}
    (hFits : ∀ b ∈ blocks, b.Fits)
    (hSound : StmtTree.SoundAll ss) :
    ∃ ss',
      StmtTree.SoundAll ss' ∧
      StmtTree.terminalsAll ss' =
        blockTerminals blocks ++ StmtTree.terminalsAll ss ++
          List.replicate blocks.length
            (.symbol .rbrace) := by
  induction blocks generalizing ss with
  | nil =>
      exact ⟨ss, hSound, (List.append_nil _).symm⟩
  | cons b blocks ih =>
      rcases List.forall_mem_cons.mp hFits with
        ⟨hFirst, hRest⟩
      have hBlock : (StmtTree.block ss).Sound := hSound
      rcases OpenBlockTree.exists_soundAll hFirst hBlock with
        ⟨list, hList, hListTerminals⟩
      rcases ih hRest hList with
        ⟨ss', hSound', hTerminals⟩
      refine ⟨ss', hSound', ?_⟩
      rw [hTerminals, hListTerminals, List.length_cons,
        List.replicate_succ]
      simp [blockTerminals, StmtTree.terminals]

variable {p : TreeParser}

/- A statement and the missing braces make a program. -/
theorem exists_derivation_of_stmt
    {s : StmtTree}
    (hAround : p.FitsAround)
    (hSound : s.Sound) :
    ∃ ss,
      Program.IsDerivation ss
        (p.around ++ s.terminals ++ p.braces) := by
  rcases OpenBlockTree.exists_soundAll hAround.list hSound
    with ⟨list, hList, hListTerminals⟩
  rcases exists_soundAll_blocks hAround.blocks hList with
    ⟨ss, hSoundAll, hTerminals⟩
  refine ⟨ss, Program.isDerivation_iff.mpr ⟨hSoundAll, ?_⟩⟩
  rw [hTerminals, hListTerminals]
  simp only [around, braces, List.append_assoc]

/-
  Where an assignment may start, the same terminals complete
  all that may stand there.
-/
theorem exists_derivation_of_expr
    {u : TreePurpose}
    {frames : List OpenTree}
    {d : ExprTree}
    (hAround : p.FitsAround)
    (hPurpose : u.Fits)
    (hFrames : OpenTree.Fits frames)
    (hNeed : OpenTree.need frames = 0)
    (hSound : d.Sound) :
    ∃ ss,
      Program.IsDerivation ss
        (p.around ++ u.terminals ++
          OpenTree.terminalsAll frames ++ d.terminals ++
          (OpenTree.closers frames ++ u.closers ++
            p.braces)) := by
  have hIsA : d.IsA (OpenTree.need frames) := by
    rw [hNeed]
    exact hSound.1
  rcases OpenTree.exists_sound hFrames hIsA hSound.2 with
    ⟨e, hWhole, hTerminals⟩
  have hStmt := TreePurpose.sound_complete hPurpose hWhole
  rcases exists_derivation_of_stmt hAround hStmt with
    ⟨ss, hDerivation⟩
  rw [TreePurpose.terminals_complete, hTerminals]
    at hDerivation
  refine ⟨ss, ?_⟩
  simpa only [List.append_assoc] using hDerivation

end TreeParser

end WordLang
