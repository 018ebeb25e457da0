import WordLang.Proofs.Grammar

/-
  This file reads derivations of expressions.

  The reader takes one terminal at a time and keeps what is
  open to the left of the next one, innermost first. What
  it has read are the terminals of what it holds, and it
  comes to every derivation by reading its terminals. So
  terminals have at most one derivation.

  Key definitions include:
    * `WordLang.OpenTree`
    * `WordLang.OpenTree.collapse`
    * `WordLang.TreeReading`
    * `WordLang.TreeReading.step`
    * `WordLang.TreeReading.run`
    * `WordLang.ExprTree.ofTerminals?`

  Key theorems include:
    * `WordLang.TreeReading.run_sound`
    * `WordLang.TreeReading.run_terminals`
    * `WordLang.ExprTree.ofTerminals?_eq_some_iff`
-/

namespace WordLang

------------------------------------------------------------
-- The Reader
------------------------------------------------------------

namespace Connective

/- The operator that a kind of token writes. -/
def ofKind? : Kind → Option Connective
| .eqEq => some equal
| .notEq => some notEqual
| .less => some less
| .lessEq => some lessEqual
| .greater => some greater
| .greaterEq => some greaterEqual
| .plus => some plus
| .minus => some minus
| .star => some times
| .slash => some dividedBy
| _ => none

theorem ofKind?_kind
    (c : Connective) :
    ofKind? c.kind = some c := by
  cases c <;> rfl

theorem kind_of_ofKind?
    {k : Kind}
    {c : Connective}
    (hKind : ofKind? k = some c) :
    k = c.kind := by
  cases k <;> cases hKind <;> rfl

end Connective

/- The operator that a terminal is. -/
def Terminal.connective? : Terminal → Option Connective
| symbol kind => Connective.ofKind? kind
| _ => none

theorem Terminal.eq_of_connective?
    {x : Terminal}
    {c : Connective}
    (hConnective : x.connective? = some c) :
    x = .symbol c.kind := by
  cases x with
  | symbol kind =>
      rw [Connective.kind_of_ofKind? hConnective]
  | number lexeme | name lexeme =>
      cases hConnective

/- What is open to the left of the next terminal. -/
inductive OpenTree where
  | sign (negative : Bool)
  | paren
  | chain (c : Connective) (lhs : ExprTree)
  | assign (target : ExprTree)

namespace OpenTree

/-
  Give an operand to the open operators that bind at least
  as strongly as `power`, innermost first.
-/
def collapse
    (power : Nat) :
    List OpenTree →
    ExprTree →
    ExprTree × List OpenTree
| chain c l :: rest, d =>
    if power ≤ c.level.rank then
      collapse power rest (.chain c l d)
    else
      (d, chain c l :: rest)
| assign t :: rest, d =>
    if power = 0 then
      collapse power rest (.assign t d)
    else
      (d, assign t :: rest)
| frames, d => (d, frames)

/- Whether the last terminal was a sign. -/
def afterSign : List OpenTree → Bool
| sign _ :: _ => true
| _ => false

end OpenTree

/- The state of the reader between two terminals. -/
inductive TreeReading where
  | operand (frames : List OpenTree)
  | operator (frames : List OpenTree) (d : ExprTree)

namespace TreeReading

/- A finished operand takes the sign in front of it. -/
def ofPrimary :
    List OpenTree →
    ExprTree →
    TreeReading
| .sign negative :: rest, d =>
    operator rest (.signed negative d)
| frames, d => operator frames d

/- How a terminal affects the reader. -/
inductive Step where
  | more (r : TreeReading)
  | done (d : ExprTree)

/- Read a terminal where an operand has to start. -/
def stepOperand
    (frames : List OpenTree)
    (x : Terminal) : Option Step :=
  match x with
  | .number s =>
      if (Literal.read? s).isSome then
        some (.more (ofPrimary frames (.number s)))
      else
        none
  | .name s => some (.more (ofPrimary frames (.name s)))
  | .symbol k =>
      if k = .lparen then
        some (.more (operand (.paren :: frames)))
      else if OpenTree.afterSign frames then
        none
      else if k = .plus then
        some (.more (operand (.sign false :: frames)))
      else if k = .minus then
        some (.more (operand (.sign true :: frames)))
      else
        none

/- The expression that has been read, if it is complete. -/
def close : TreeReading → Option ExprTree
| operand _ => none
| operator frames d =>
    match OpenTree.collapse 0 frames d with
    | (_, .paren :: _) => none
    | (d, _) => some d

/- Read a terminal after an operand. -/
def stepOperator
    (frames : List OpenTree)
    (d : ExprTree)
    (x : Terminal) : Option Step :=
  match x.connective? with
  | some c =>
      let (l, rest) :=
        OpenTree.collapse c.level.rank frames d
      some (.more (operand (.chain c l :: rest)))
  | none =>
      if x = .symbol .assign then
        let (t, rest) := OpenTree.collapse 1 frames d
        if t.isPlace then
          some (.more (operand (.assign t :: rest)))
        else
          none
      else if x = .symbol .rparen then
        match OpenTree.collapse 0 frames d with
        | (d, .paren :: rest) =>
            some (.more (ofPrimary rest (.paren d)))
        | (d, _) => some (.done d)
      else
        (close (operator frames d)).map .done

/- Read a terminal. -/
def step
    (r : TreeReading)
    (x : Terminal) : Option Step :=
  match r with
  | operand frames => stepOperand frames x
  | operator frames d => stepOperator frames d x

/- Read terminals that all belong to the expression. -/
def run :
    TreeReading →
    List Terminal →
    Option TreeReading
| r, [] => some r
| r, x :: xs =>
    match r.step x with
    | some (.more r) => run r xs
    | _ => none

end TreeReading

/- The derivation of an expression from some terminals. -/
def ExprTree.ofTerminals?
    (xs : List Terminal) : Option ExprTree :=
  ((TreeReading.operand []).run xs).bind TreeReading.close

------------------------------------------------------------
-- What Has Been Read
------------------------------------------------------------

namespace OpenTree

/- The terminals of what is open. -/
def terminals : OpenTree → List Terminal
| sign negative =>
    [.symbol (if negative then .minus else .plus)]
| paren => [.symbol .lparen]
| chain c l => l.terminals ++ [.symbol c.kind]
| assign t => t.terminals ++ [.symbol .assign]

/- The terminals of everything that is open. -/
def terminalsAll : List OpenTree → List Terminal
| [] => []
| f :: rest => terminalsAll rest ++ f.terminals

/- How strongly the operand of what is open has to bind. -/
def need : List OpenTree → Nat
| sign _ :: _ => 6
| chain c _ :: _ => c.level.rank + 1
| _ => 0

/- Only operators ask their operand to bind. -/
theorem need_eq_zero
    {frames : List OpenTree}
    (hNeed : need frames ≤ 1) :
    need frames = 0 := by
  match frames with
  | [] | .paren :: rest | .assign t :: rest =>
      rfl
  | .sign negative :: rest =>
      simp [need] at hNeed
  | .chain c l :: rest =>
      have hBounds := c.rank_level_bounds
      simp only [need] at hNeed
      omega

/- What is open is the beginning of a derivation. -/
def Fits : List OpenTree → Prop
| [] => True
| sign _ :: rest => need rest ≤ 5 ∧ Fits rest
| paren :: rest => Fits rest
| chain c l :: rest =>
    l.IsA c.level.rank ∧ l.Valid ∧
      need rest ≤ c.level.rank ∧ Fits rest
| assign t :: rest =>
    t.IsA 1 ∧ t.isPlace = true ∧ t.Valid ∧
      need rest = 0 ∧ Fits rest

/- The collapse leaves what it has read as it is. -/
theorem terminals_collapse
    (power : Nat)
    (frames : List OpenTree)
    (d : ExprTree) :
    terminalsAll (collapse power frames d).2 ++
        (collapse power frames d).1.terminals =
      terminalsAll frames ++ d.terminals := by
  fun_induction collapse power frames d with
  | case1 c l rest d hPower ih =>
      rw [ih]
      simp [terminalsAll, terminals, ExprTree.terminals]
  | case2 c l rest d hPower =>
      rfl
  | case3 t rest d hZero ih =>
      rw [ih]
      simp [terminalsAll, terminals, ExprTree.terminals]
  | case4 t rest d hPower =>
      rfl
  | case5 frames d hChain hAssign =>
      rfl

/-
  A collapse keeps the beginning of a derivation. The
  operand binds as strongly as the collapse asks, and what
  is still open asks for no more.
-/
theorem collapse_fits
    {power m : Nat}
    {frames : List OpenTree}
    {d : ExprTree}
    (hFits : Fits frames)
    (hIsA : d.IsA m)
    (hValid : d.Valid)
    (hNeed : need frames ≤ m)
    (hPower : power ≤ m)
    (hUnary : m ≤ 5) :
    Fits (collapse power frames d).2 ∧
      (collapse power frames d).1.IsA power ∧
      (collapse power frames d).1.Valid ∧
      need (collapse power frames d).2 ≤ power := by
  fun_induction collapse power frames d generalizing m with
  | case1 c l rest d hCollapse ih =>
      obtain ⟨hLeft, hValidLeft, hRest, hFits⟩ := hFits
      have hRight : d.IsA (c.level.rank + 1) :=
        hIsA.mono hNeed
      have hBounds := c.rank_level_bounds
      exact ih hFits ⟨Nat.le_refl _, hLeft, hRight⟩
        ⟨hValidLeft, hValid⟩ hRest hCollapse (by omega)
  | case2 c l rest d hStop =>
      refine ⟨hFits, hIsA.mono hPower, hValid, ?_⟩
      simp only [need]
      omega
  | case3 t rest d hZero ih =>
      obtain ⟨hTarget, hPlace, hValidTarget, hRest, hFits⟩ :=
        hFits
      have hValue : d.IsA 0 := hIsA.mono (Nat.zero_le m)
      exact ih hFits ⟨rfl, hTarget, hValue⟩
        ⟨hPlace, hValidTarget, hValid⟩ (by omega)
        (Nat.le_of_eq hZero) (by omega)
  | case4 t rest d hStop =>
      exact ⟨hFits, hIsA.mono hPower, hValid,
        Nat.zero_le power⟩
  | case5 frames d hChain hAssign =>
      refine ⟨hFits, hIsA.mono hPower, hValid, ?_⟩
      match frames with
      | [] | .paren :: rest =>
          exact Nat.zero_le power
      | .sign negative :: rest =>
          simp only [need] at hNeed
          omega
      | .chain c l :: rest =>
          exact (hChain c l rest rfl).elim
      | .assign t :: rest =>
          exact (hAssign t rest rfl).elim

/- Only an open parenthesis stops a collapse of all. -/
theorem collapse_zero_open
    {frames : List OpenTree}
    (d : ExprTree)
    (hFits : Fits frames)
    (hNeed : need frames ≤ 5) :
    (collapse 0 frames d).2 = [] ∨
      ∃ rest, (collapse 0 frames d).2 = .paren :: rest := by
  fun_induction collapse 0 frames d with
  | case1 c l rest d hCollapse ih =>
      have hBounds := c.rank_level_bounds
      have hRest := hFits.2.2.1
      exact ih hFits.2.2.2 (by omega)
  | case2 c l rest d hStop =>
      exact (hStop (Nat.zero_le _)).elim
  | case3 t rest d hZero ih =>
      have hRest := hFits.2.2.2.1
      exact ih hFits.2.2.2.2 (by omega)
  | case4 t rest d hStop =>
      exact (hStop rfl).elim
  | case5 frames d hChain hAssign =>
      match frames with
      | [] =>
          exact .inl rfl
      | .paren :: rest =>
          exact .inr ⟨rest, rfl⟩
      | .sign negative :: rest =>
          simp [need] at hNeed
      | .chain c l :: rest =>
          exact (hChain c l rest rfl).elim
      | .assign t :: rest =>
          exact (hAssign t rest rfl).elim

end OpenTree

namespace TreeReading

/- The terminals that have been read. -/
def terminals : TreeReading → List Terminal
| operand frames => OpenTree.terminalsAll frames
| operator frames d =>
    OpenTree.terminalsAll frames ++ d.terminals

/- What has been read is the beginning of a derivation. -/
def Fits : TreeReading → Prop
| operand frames => OpenTree.Fits frames
| operator frames d =>
    OpenTree.Fits frames ∧
      OpenTree.need frames ≤ 5 ∧
      d.IsA 5 ∧
      d.Valid

theorem terminals_ofPrimary
    (frames : List OpenTree)
    (d : ExprTree) :
    (ofPrimary frames d).terminals =
      OpenTree.terminalsAll frames ++ d.terminals := by
  match frames with
  | .sign negative :: rest =>
      simp [ofPrimary, terminals, OpenTree.terminalsAll,
        OpenTree.terminals, ExprTree.terminals]
  | [] | .paren :: rest | .chain c l :: rest
  | .assign t :: rest =>
      rfl

theorem fits_ofPrimary
    {frames : List OpenTree}
    {d : ExprTree}
    (hFits : OpenTree.Fits frames)
    (hIsA : d.IsA 6)
    (hValid : d.Valid) :
    (ofPrimary frames d).Fits := by
  have hUnary : d.IsA 5 := hIsA.mono (by decide)
  match frames with
  | .sign negative :: rest =>
      exact ⟨hFits.2, hFits.1, ⟨Nat.le_refl 5, hIsA⟩,
        hValid⟩
  | [] | .paren :: rest | .assign t :: rest =>
      exact ⟨hFits, Nat.zero_le 5, hUnary, hValid⟩
  | .chain c l :: rest =>
      have hBounds := c.rank_level_bounds
      refine ⟨hFits, ?_, hUnary, hValid⟩
      simp only [OpenTree.need]
      omega

/- A collapse keeps what has been read. -/
theorem fits_collapse
    {power : Nat}
    {frames : List OpenTree}
    {d : ExprTree}
    (hFits : (operator frames d).Fits)
    (hPower : power ≤ 5) :
    OpenTree.Fits (OpenTree.collapse power frames d).2 ∧
      (OpenTree.collapse power frames d).1.IsA power ∧
      (OpenTree.collapse power frames d).1.Valid ∧
      OpenTree.need (OpenTree.collapse power frames d).2 ≤
        power := by
  obtain ⟨hFrames, hNeed, hIsA, hValid⟩ := hFits
  exact OpenTree.collapse_fits hFrames hIsA hValid hNeed
    hPower (Nat.le_refl 5)

/- A closed expression is derived from what was read. -/
theorem close_sound
    {r : TreeReading}
    {d : ExprTree}
    (hFits : r.Fits)
    (hClose : r.close = some d) :
    d.IsA 0 ∧ d.Valid ∧ d.terminals = r.terminals := by
  cases r with
  | operand frames =>
      cases hClose
  | operator frames e =>
      obtain ⟨-, hIsA, hValid, -⟩ :=
        fits_collapse hFits (Nat.zero_le 5)
      have hTerminals :=
        OpenTree.terminals_collapse 0 frames e
      have hOpen :=
        OpenTree.collapse_zero_open e hFits.1 hFits.2.1
      cases hCollapse : OpenTree.collapse 0 frames e with
      | mk e' rest =>
          rw [hCollapse] at hIsA hValid hTerminals hOpen
          simp only [close, hCollapse] at hClose
          rcases hOpen with rfl | ⟨rest', rfl⟩
          · cases hClose
            exact ⟨hIsA, hValid, hTerminals⟩
          · cases hClose

/- A terminal that starts an operand is read. -/
theorem stepOperand_sound
    {frames : List OpenTree}
    {x : Terminal}
    {s : Step}
    (hFits : OpenTree.Fits frames)
    (hStep : stepOperand frames x = some s) :
    ∃ r, s = .more r ∧ r.Fits ∧
      r.terminals = OpenTree.terminalsAll frames ++ [x] := by
  cases x with
  | number lexeme =>
      simp only [stepOperand] at hStep
      split at hStep
      · rename_i hRead
        cases hStep
        exact ⟨_, rfl,
          fits_ofPrimary hFits (Nat.le_refl 6) hRead,
          terminals_ofPrimary _ _⟩
      · cases hStep
  | name lexeme =>
      cases hStep
      exact ⟨_, rfl,
        fits_ofPrimary hFits (Nat.le_refl 6) trivial,
        terminals_ofPrimary _ _⟩
  | symbol kind =>
      have hNeed (hSign : ¬OpenTree.afterSign frames = true) :
          OpenTree.need frames ≤ 5 := by
        match frames with
        | [] | .paren :: rest | .assign t :: rest =>
            exact Nat.zero_le 5
        | .chain c l :: rest =>
            have hBounds := c.rank_level_bounds
            simp only [OpenTree.need]
            omega
        | .sign negative :: rest =>
            exact (hSign rfl).elim
      simp only [stepOperand] at hStep
      split at hStep
      · rename_i hKind
        cases hStep
        exact ⟨_, rfl, hFits, by rw [hKind]; rfl⟩
      split at hStep
      · cases hStep
      rename_i hSign
      split at hStep
      · rename_i hKind
        cases hStep
        exact ⟨_, rfl, ⟨hNeed hSign, hFits⟩,
          by rw [hKind]; rfl⟩
      split at hStep
      · rename_i hKind
        cases hStep
        exact ⟨_, rfl, ⟨hNeed hSign, hFits⟩,
          by rw [hKind]; rfl⟩
      · cases hStep

/- A terminal after an operand is read or ends it. -/
theorem stepOperator_sound
    {frames : List OpenTree}
    {d : ExprTree}
    {x : Terminal}
    {s : Step}
    (hFits : (operator frames d).Fits)
    (hStep : stepOperator frames d x = some s) :
    (∃ r, s = .more r ∧ r.Fits ∧
      r.terminals =
        (operator frames d).terminals ++ [x]) ∨
    (∃ e, s = .done e ∧ e.IsA 0 ∧ e.Valid ∧
      e.terminals = (operator frames d).terminals) := by
  unfold stepOperator at hStep
  cases hConnective : x.connective? with
  | some c =>
      rw [hConnective] at hStep
      have hBounds := c.rank_level_bounds
      obtain ⟨hRest, hIsA, hValid, hNeed⟩ :=
        fits_collapse hFits (by omega : c.level.rank ≤ 5)
      have hTerminals :=
        OpenTree.terminals_collapse c.level.rank frames d
      cases hStep
      refine .inl ⟨_, rfl, ⟨hIsA, hValid, hNeed, hRest⟩, ?_⟩
      rw [Terminal.eq_of_connective? hConnective, terminals,
        terminals, ← hTerminals, List.append_assoc]
      rfl
  | none =>
      simp only [hConnective] at hStep
      split at hStep
      · rename_i hAssign
        obtain ⟨hRest, hIsA, hValid, hNeed⟩ :=
          fits_collapse hFits (by decide : 1 ≤ 5)
        have hTerminals :=
          OpenTree.terminals_collapse 1 frames d
        split at hStep
        · rename_i hPlace
          cases hStep
          refine .inl ⟨_, rfl,
            ⟨hIsA, hPlace, hValid, ?_, hRest⟩, ?_⟩
          · exact OpenTree.need_eq_zero hNeed
          · rw [hAssign, terminals, terminals,
              ← hTerminals, List.append_assoc]
            rfl
        · cases hStep
      split at hStep
      · rename_i hParen
        obtain ⟨hRest, hIsA, hValid, -⟩ :=
          fits_collapse hFits (Nat.zero_le 5)
        have hTerminals :=
          OpenTree.terminals_collapse 0 frames d
        have hOpen :=
          OpenTree.collapse_zero_open d hFits.1 hFits.2.1
        cases hCollapse : OpenTree.collapse 0 frames d with
        | mk e rest =>
            rw [hCollapse] at hRest hIsA hValid hTerminals
            rw [hCollapse] at hOpen hStep
            rcases hOpen with rfl | ⟨rest', rfl⟩
            · cases hStep
              exact .inr ⟨e, rfl, hIsA, hValid, hTerminals⟩
            · cases hStep
              refine .inl ⟨_, rfl,
                fits_ofPrimary hRest
                  ⟨Nat.le_refl 6, hIsA⟩ hValid, ?_⟩
              rw [hParen, terminals_ofPrimary, terminals,
                ← hTerminals]
              simp [OpenTree.terminalsAll,
                OpenTree.terminals, ExprTree.terminals]
      · cases hClose : (operator frames d).close with
        | none =>
            rw [hClose] at hStep
            cases hStep
        | some e =>
            rw [hClose] at hStep
            cases hStep
            exact .inr ⟨e, rfl, close_sound hFits hClose⟩

/- A terminal that is read is added to what was read. -/
theorem step_more
    {r r' : TreeReading}
    {x : Terminal}
    (hFits : r.Fits)
    (hStep : r.step x = some (.more r')) :
    r'.Fits ∧ r'.terminals = r.terminals ++ [x] := by
  cases r with
  | operand frames =>
      obtain ⟨r₁, hMore, hSound⟩ :=
        stepOperand_sound hFits hStep
      cases hMore
      exact hSound
  | operator frames d =>
      rcases stepOperator_sound hFits hStep
        with ⟨r₁, hMore, hSound⟩ | ⟨e, hDone, -⟩
      · cases hMore
        exact hSound
      · cases hDone

/- A terminal that ends an expression is not part of it. -/
theorem step_done
    {r : TreeReading}
    {x : Terminal}
    {d : ExprTree}
    (hFits : r.Fits)
    (hStep : r.step x = some (.done d)) :
    d.IsA 0 ∧ d.Valid ∧ d.terminals = r.terminals := by
  cases r with
  | operand frames =>
      obtain ⟨r₁, hMore, -⟩ :=
        stepOperand_sound hFits hStep
      cases hMore
  | operator frames e =>
      rcases stepOperator_sound hFits hStep
        with ⟨r₁, hMore, -⟩ | ⟨e', hDone, hSound⟩
      · cases hMore
      · cases hDone
        exact hSound

/- What has been read after a run. -/
theorem run_sound
    {r r' : TreeReading}
    {xs : List Terminal}
    (hFits : r.Fits)
    (hRun : r.run xs = some r') :
    r'.Fits ∧ r'.terminals = r.terminals ++ xs := by
  induction xs generalizing r with
  | nil =>
      cases hRun
      exact ⟨hFits, (List.append_nil _).symm⟩
  | cons x xs ih =>
      rw [run] at hRun
      split at hRun
      · rename_i r₁ hStep
        obtain ⟨hFits₁, hTerminals₁⟩ :=
          step_more hFits hStep
        obtain ⟨hFits', hTerminals⟩ := ih hFits₁ hRun
        refine ⟨hFits', ?_⟩
        rw [hTerminals, hTerminals₁, List.append_assoc]
        rfl
      · cases hRun

end TreeReading

------------------------------------------------------------
-- Coming to Every Derivation
------------------------------------------------------------

namespace OpenTree

/-
  No operator that binds at least as strongly as `n` takes
  the next operand from the left. Assignments are never
  taken by an operator.
-/
def Stops
    (frames : List OpenTree)
    (n : Nat) : Prop :=
  ∀ power,
    n ≤ power →
    1 ≤ power →
    ∀ d, collapse power frames d = (d, frames)

theorem Stops.mono
    {frames : List OpenTree}
    {m n : Nat}
    (hStops : Stops frames m)
    (hLe : m ≤ n) :
    Stops frames n := by
  intro power hPower
  exact hStops power (Nat.le_trans hLe hPower)

theorem stops_nil : Stops [] 0 := by
  intro power _ _ d
  rfl

theorem stops_paren
    (rest : List OpenTree) :
    Stops (.paren :: rest) 0 := by
  intro power _ _ d
  rfl

theorem stops_assign
    (t : ExprTree)
    (rest : List OpenTree) :
    Stops (.assign t :: rest) 0 := by
  intro power _ hPower d
  rw [collapse, if_neg (by omega)]

theorem stops_chain
    (c : Connective)
    (l : ExprTree)
    (rest : List OpenTree) :
    Stops (.chain c l :: rest) (c.level.rank + 1) := by
  intro power hPower _ d
  rw [collapse, if_neg (by omega)]

end OpenTree

namespace TreeReading

/- A run of two parts. -/
theorem run_append
    (r : TreeReading)
    (xs ys : List Terminal) :
    r.run (xs ++ ys) = (r.run xs).bind (·.run ys) := by
  induction xs generalizing r with
  | nil =>
      rfl
  | cons x xs ih =>
      rw [List.cons_append, run, run]
      split
      · exact ih _
      · rfl

/- A run that starts with a terminal that is read. -/
theorem run_cons
    {r r' : TreeReading}
    {x : Terminal}
    (hStep : r.step x = some (.more r'))
    (xs : List Terminal) :
    r.run (x :: xs) = r'.run xs := by
  rw [run, hStep]

theorem ofPrimary_eq_operator
    {frames : List OpenTree}
    (d : ExprTree)
    (hSign : OpenTree.afterSign frames = false) :
    ofPrimary frames d = operator frames d := by
  match frames with
  | .sign negative :: rest =>
      cases hSign
  | [] | .paren :: rest | .chain c l :: rest
  | .assign t :: rest =>
      rfl

/-
  Reading the operand `d` of what is open. The operand may
  not be complete yet, but each collapse that another
  terminal can cause gives what it would give if it were.
-/
def Takes
    (frames : List OpenTree)
    (d : ExprTree)
    (n : Nat) : Prop :=
  ∃ frames' e,
    (operand frames).run d.terminals =
      some (operator frames' e) ∧
    ∀ power ≤ n,
      OpenTree.collapse power frames' e =
        OpenTree.collapse power frames d

/- What is read as a primary is read as an operand. -/
theorem takes_of_primary
    {frames : List OpenTree}
    {d : ExprTree}
    (n : Nat)
    (hRun :
      (operand frames).run d.terminals =
        some (ofPrimary frames d))
    (hSign : OpenTree.afterSign frames = false) :
    Takes frames d n := by
  refine ⟨frames, d, ?_, fun power _ => rfl⟩
  rw [hRun, ofPrimary_eq_operator d hSign]

/- The operator after a left operand is read. -/
theorem step_connective
    {frames frames' : List OpenTree}
    {l e : ExprTree}
    (c : Connective)
    (hCollapse :
      OpenTree.collapse c.level.rank frames' e =
        (l, frames)) :
    (operator frames' e).step (.symbol c.kind) =
      some (.more (operand (.chain c l :: frames))) := by
  have hConnective :
      (Terminal.symbol c.kind).connective? = some c :=
    c.ofKind?_kind
  simp only [step, stepOperator, hConnective, hCollapse]

/- The sign of an assignment is read after its target. -/
theorem step_assign
    {frames frames' : List OpenTree}
    {t e : ExprTree}
    (hCollapse :
      OpenTree.collapse 1 frames' e = (t, frames))
    (hPlace : t.isPlace = true) :
    (operator frames' e).step (.symbol .assign) =
      some (.more (operand (.assign t :: frames))) := by
  simp [step, stepOperator, Terminal.connective?,
    Connective.ofKind?, hCollapse, hPlace]

/- A parenthesis is closed. -/
theorem step_rparen
    {frames frames' : List OpenTree}
    {d e : ExprTree}
    (hCollapse :
      OpenTree.collapse 0 frames' e =
        (d, .paren :: frames)) :
    (operator frames' e).step (.symbol .rparen) =
      some (.more (ofPrimary frames (.paren d))) := by
  simp [step, stepOperator, Terminal.connective?,
    Connective.ofKind?, hCollapse]

/- A sign is read where there is none. -/
theorem step_sign
    {frames : List OpenTree}
    (negative : Bool)
    (hSign : OpenTree.afterSign frames = false) :
    (operand frames).step
        (.symbol (if negative then .minus else .plus)) =
      some
        (.more (operand (.sign negative :: frames))) := by
  cases negative <;>
    simp [step, stepOperand, hSign]

/-
  Reading comes to every derivation. Operands that a sign
  may stand in front of are stated apart, since they take
  the sign with them.
-/
theorem run_terminals
    {d : ExprTree}
    (hValid : d.Valid) :
    (d.IsA 6 →
      ∀ frames,
        (operand frames).run d.terminals =
          some (ofPrimary frames d)) ∧
    (∀ n frames,
      d.IsA n →
      OpenTree.Stops frames n →
      OpenTree.afterSign frames = false →
      Takes frames d n) := by
  induction d with
  | number s =>
      have hRun (frames : List OpenTree) :
          (operand frames).run [.number s] =
            some (ofPrimary frames (.number s)) := by
        have hRead : (Literal.read? s).isSome = true :=
          hValid
        simp [run, step, stepOperand, hRead]
      exact ⟨fun _ => hRun, fun n frames _ _ =>
        takes_of_primary n (hRun frames)⟩
  | name s =>
      have hRun (frames : List OpenTree) :
          (operand frames).run [.name s] =
            some (ofPrimary frames (.name s)) := by
        rfl
      exact ⟨fun _ => hRun, fun n frames _ _ =>
        takes_of_primary n (hRun frames)⟩
  | paren d ih =>
      have hRun
          (hInner : d.IsA 0)
          (frames : List OpenTree) :
          (operand frames).run (ExprTree.paren d).terminals =
            some (ofPrimary frames (.paren d)) := by
        obtain ⟨frames', e, hRun, hCollapse⟩ :=
          (ih hValid).2 0 (.paren :: frames) hInner
            (OpenTree.stops_paren frames) rfl
        have hClose := hCollapse 0 (Nat.le_refl 0)
        have hOpen :
            (operand frames).step (.symbol .lparen) =
              some (.more (operand (.paren :: frames))) :=
          rfl
        rw [ExprTree.terminals, List.append_assoc,
          List.singleton_append, run_cons hOpen,
          run_append, hRun, Option.bind_some,
          run_cons (step_rparen hClose)]
        rfl
      exact ⟨fun hIsA => hRun hIsA.2, fun n frames hIsA _ =>
        takes_of_primary n (hRun hIsA.2 frames)⟩
  | signed negative d ih =>
      refine ⟨fun hIsA => absurd hIsA.1 (by decide), ?_⟩
      intro n frames hIsA hStops hSign
      have hRun :=
        (ih hValid).1 hIsA.2 (.sign negative :: frames)
      refine ⟨frames, .signed negative d, ?_,
        fun power _ => rfl⟩
      rw [ExprTree.terminals,
        run_cons (step_sign negative hSign), hRun]
      rfl
  | chain c l r ihLeft ihRight =>
      have hBounds := c.rank_level_bounds
      refine ⟨fun hIsA => absurd hIsA.1 (by omega), ?_⟩
      intro n frames hIsA hStops hSign
      obtain ⟨hRank, hLeft, hRight⟩ := hIsA
      have hStopsLeft := hStops.mono hRank
      obtain ⟨frames₁, e₁, hRunLeft, hCollapseLeft⟩ :=
        (ihLeft hValid.1).2 c.level.rank frames hLeft
          hStopsLeft hSign
      have hReady :
          OpenTree.collapse c.level.rank frames₁ e₁ =
            (l, frames) := by
        rw [hCollapseLeft _ (Nat.le_refl _),
          hStopsLeft _ (Nat.le_refl _) hBounds.1]
      obtain ⟨frames₂, e₂, hRunRight, hCollapseRight⟩ :=
        (ihRight hValid.2).2 (c.level.rank + 1)
          (.chain c l :: frames) hRight
          (OpenTree.stops_chain c l frames) rfl
      refine ⟨frames₂, e₂, ?_, ?_⟩
      · rw [ExprTree.terminals, List.append_assoc,
          List.singleton_append, run_append, hRunLeft,
          Option.bind_some,
          run_cons (step_connective c hReady), hRunRight]
      · intro power hPower
        rw [hCollapseRight power (by omega),
          OpenTree.collapse, if_pos (by omega)]
  | assign t v ihTarget ihValue =>
      obtain ⟨hPlace, hValidTarget, hValidValue⟩ := hValid
      refine ⟨fun hIsA => absurd hIsA.1 (by decide), ?_⟩
      intro n frames hIsA hStops hSign
      obtain ⟨rfl, hTarget, hValue⟩ := hIsA
      have hStopsTarget := hStops.mono (Nat.zero_le 1)
      obtain ⟨frames₁, e₁, hRunTarget, hCollapseTarget⟩ :=
        (ihTarget hValidTarget).2 1 frames hTarget
          hStopsTarget hSign
      have hReady :
          OpenTree.collapse 1 frames₁ e₁ = (t, frames) := by
        rw [hCollapseTarget _ (Nat.le_refl _),
          hStopsTarget _ (Nat.le_refl _) (Nat.le_refl _)]
      obtain ⟨frames₂, e₂, hRunValue, hCollapseValue⟩ :=
        (ihValue hValidValue).2 0 (.assign t :: frames)
          hValue (OpenTree.stops_assign t frames) rfl
      refine ⟨frames₂, e₂, ?_, ?_⟩
      · rw [ExprTree.terminals, List.append_assoc,
          List.singleton_append, run_append, hRunTarget,
          Option.bind_some,
          run_cons (step_assign hReady hPlace), hRunValue]
      · intro power hPower
        have hZero : power = 0 := Nat.le_zero.mp hPower
        rw [hCollapseValue power hPower,
          OpenTree.collapse, if_pos hZero]

/- An expression is complete when its terminals are read. -/
theorem run_start
    {d : ExprTree}
    (hIsA : d.IsA 0)
    (hValid : d.Valid) :
    ∃ frames e,
      (operand []).run d.terminals =
        some (operator frames e) ∧
      OpenTree.collapse 0 frames e = (d, []) := by
  obtain ⟨frames, e, hRun, hCollapse⟩ :=
    (run_terminals hValid).2 0 [] hIsA OpenTree.stops_nil
      rfl
  exact ⟨frames, e, hRun, hCollapse 0 (Nat.le_refl 0)⟩

end TreeReading

/-
  The reader gives exactly the derivations of what it has
  read, so there is at most one.
-/
theorem ExprTree.ofTerminals?_eq_some_iff
    {xs : List Terminal}
    {d : ExprTree} :
    ofTerminals? xs = some d ↔ Expr.IsDerivation d xs := by
  constructor
  · intro hRead
    obtain ⟨r, hRun, hClose⟩ := Option.bind_eq_some_iff.mp hRead
    obtain ⟨hFits, hTerminals⟩ :=
      TreeReading.run_sound (r := .operand []) trivial hRun
    obtain ⟨hIsA, hValid, hRead⟩ :=
      TreeReading.close_sound hFits hClose
    exact ⟨derives_iff.mpr hIsA, hValid,
      hRead.trans hTerminals⟩
  · rintro ⟨hDerives, hValid, rfl⟩
    obtain ⟨frames, e, hRun, hCollapse⟩ :=
      TreeReading.run_start (derives_iff.mp hDerives) hValid
    rw [ofTerminals?, hRun, Option.bind_some,
      TreeReading.close, hCollapse]

end WordLang
