import WordLang.Proofs.PhraseParts
import WordLang.Proofs.TargetAgreement

/-
  This file says where the code of a program stops.

  Two things keep a program from having code: a value that
  is assigned to something other than a variable, and a
  variable that is not in the table. In both cases the
  address of an expression is asked for that has none. The
  first such expression in the order of the code is the one
  that is reported.

  If these expressions are replaced by variables from the
  table, the program has code. What was emitted before the
  fault is the same, and the next line that is missing would
  have computed the address.

  Key definitions include:
    * `WordLang.Locals.HasWord`
    * `WordLang.Expr.culprit?`
    * `WordLang.Expr.fault`
    * `WordLang.Program.nodes`
    * `WordLang.Program.repaired`
    * `WordLang.Emitter.CutAt`

  Key theorems include:
    * `WordLang.Locals.hasWord_iff_mem_entries`
    * `WordLang.Program.nodes_perm`
    * `WordLang.Emitter.CutAt.append`
    * `WordLang.Stmt.cutAt_code`
    * `WordLang.Program.generateInto_stops_at_first_fault`
-/

namespace WordLang

------------------------------------------------------------
-- Words of Variables
------------------------------------------------------------

namespace Locals

/-
  The table has a variable at an offset: the words of the
  variables follow each other, eight bytes apart.
-/
def HasWord
    (t : Locals)
    (o : Offset) : Prop :=
  ∃ i, i < t.size ∧ o.bytes.toNat = 8 * (i + 1)

/- This is what the emission of an address asks. -/
theorem hasWord_iff_contains
    {t : Locals}
    {o : Offset} :
    t.HasWord o ↔ t.contains o = true :=
  (t.contains_iff_exists o).symm

instance (t : Locals) (o : Offset) : Decidable (t.HasWord o) :=
  decidable_of_iff _
    ((t.contains_iff o).symm.trans (t.contains_iff_exists o))

/- A table whose offsets do not wrap has those it lists. -/
theorem hasWord_iff_mem_entries
    {t : Locals}
    (hSize : t.size < 2 ^ 29)
    (o : Offset) :
    t.HasWord o ↔ ∃ name, (name, o) ∈ t.entries := by
  constructor
  · rintro ⟨i, hLess, hBytes⟩
    have hSame :
        (offsetAt i).bytes.toNat = o.bytes.toNat := by
      rw [toNat_offsetAt (by omega), hBytes]
    have hOffset : offsetAt i = o :=
      congrArg Offset.mk (UInt32.toNat_inj.mp hSame)
    have hListed : (t.names[i], i) ∈ t.names.zipIdx :=
      List.mk_mem_zipIdx_iff_getElem?.mpr
        (List.getElem?_eq_getElem hLess)
    refine ⟨t.names[i], List.mem_map.mpr ⟨_, hListed, ?_⟩⟩
    exact congrArg (Prod.mk _) hOffset
  · rintro ⟨name, hMem⟩
    rcases List.mem_map.mp hMem with
      ⟨⟨name', i⟩, hListed, hSame⟩
    cases hSame
    have hLess : i < t.size :=
      (List.getElem?_eq_some_iff.mp
        (List.mk_mem_zipIdx_iff_getElem?.mp hListed)).1
    exact ⟨i, hLess, toNat_offsetAt (by omega)⟩

end Locals

------------------------------------------------------------
-- Expressions Without an Address
------------------------------------------------------------

namespace Expr

/-
  The expression that a node asks the address of, if there
  is none.
-/
def culprit?
    (locals : Locals) :
    Expr → Option Expr
| var offset span =>
    if locals.HasWord offset then
      none
    else
      some (var offset span)
| assign target _ _ =>
    if target.isVar then
      none
    else
      some target
| _ => none

/- What is wrong with an expression without an address. -/
def fault : Expr → Located Fault
| var offset span => ⟨.unresolved offset, span⟩
| e => ⟨.notAddressable, e.span⟩

/- The nodes that are not to blame for anything. -/
theorem culprit?_eq_none_iff
    {locals : Locals}
    {nodes : List Expr} :
    (∀ e ∈ nodes, e.culprit? locals = none) ↔
      (∀ target value span,
        assign target value span ∈ nodes →
        target.isVar = true) ∧
      (∀ offset span,
        var offset span ∈ nodes →
        locals.HasWord offset) := by
  constructor
  · intro hNone
    constructor
    · intro target value span hMem
      simpa [culprit?] using hNone _ hMem
    · intro offset span hMem
      simpa [culprit?] using hNone _ hMem
  · rintro ⟨hAssign, hVar⟩ e hMem
    cases e with
    | int value span | binary op lhs rhs span =>
        rfl
    | var offset span =>
        simp [culprit?, hVar offset span hMem]
    | assign target value span =>
        simp [culprit?, hAssign target value span hMem]

end Expr

------------------------------------------------------------
-- The Order of the Code
------------------------------------------------------------

namespace Stmt

mutual

/-
  The expressions of a statement in the order of its code.
  The step of a `for` comes after its body.
-/
def lowered : Stmt → List Expr
| expr e _ => [e]
| ret e _ => [e]
| ifThen predicate thenArm _ => predicate :: lowered thenArm
| ifElse predicate thenArm elseArm _ =>
    predicate :: (lowered thenArm ++ lowered elseArm)
| whileLoop predicate body _ => predicate :: lowered body
| forLoop init predicate step body _ =>
    init.toList ++
      (predicate.toList ++ (lowered body ++ step.toList))
| block body _ => loweredAll body

/- The same for statements one after another. -/
def loweredAll : List Stmt → List Expr
| [] => []
| s :: ss => lowered s ++ loweredAll ss

end

mutual

/- All expressions have their turn. -/
theorem lowered_perm :
    (s : Stmt) →
    s.lowered.Perm (s.parts.flatMap exprs)
| expr e _ | ret e _ => by
    exact .refl _
| ifThen predicate arm _ | whileLoop predicate arm _ => by
    exact (lowered_perm arm).cons predicate
| ifElse predicate thenArm elseArm _ => by
    rw [lowered, parts, List.flatMap_cons,
      List.flatMap_append]
    exact ((lowered_perm thenArm).append
      (lowered_perm elseArm)).cons predicate
| forLoop init predicate step body _ => by
    rw [lowered, parts, List.flatMap_cons, exprs,
      List.append_assoc, List.append_assoc]
    have hBody :
        (lowered body ++ step.toList).Perm
          (step.toList ++ body.parts.flatMap exprs) :=
      List.perm_append_comm.trans
        ((lowered_perm body).append_left _)
    exact (hBody.append_left _).append_left _
| block body _ => by
    exact loweredAll_perm body

theorem loweredAll_perm :
    (ss : List Stmt) →
    (loweredAll ss).Perm ((partsAll ss).flatMap exprs)
| [] => by
    exact .nil
| s :: ss => by
    rw [loweredAll, partsAll, List.flatMap_append]
    exact (lowered_perm s).append (loweredAll_perm ss)

end

end Stmt

namespace Program

/-
  The nodes of a program in the order of its code. A node
  comes before its operands, and the left operand before the
  right one.
-/
def nodes
    (p : Program) : List Expr :=
  (Stmt.loweredAll p.body).flatMap Expr.parts

theorem nodes_perm
    (p : Program) :
    p.nodes.Perm p.exprs :=
  (Stmt.loweredAll_perm p.body).flatMap_right _

end Program

------------------------------------------------------------
-- Repaired Programs
------------------------------------------------------------

/- An offset that is in a table. -/
abbrev Locals.Slot (t : Locals) :=
  { o : Offset // t.HasWord o }

/- All tables with a name have one. -/
theorem Locals.nonempty_slot_iff
    (t : Locals) :
    Nonempty t.Slot ↔ t.isEmpty = false := by
  constructor
  · rintro ⟨o, i, hLess, -⟩
    cases hNames : t.names with
    | nil =>
        simp [size, hNames] at hLess
    | cons name names =>
        simp [isEmpty, hNames]
  · intro hSome
    refine ⟨⟨8⟩, 0, ?_, by decide⟩
    cases hNames : t.names with
    | nil =>
        simp [isEmpty, hNames] at hSome
    | cons name names =>
        simp [size, hNames]

/-
  A table that has the offsets of another one and all spare
  offsets.
-/
structure Locals.Supplies
    (t' t : Locals)
    (spare : Expr → Offset) : Prop where
  kept : ∀ o, t.HasWord o → t'.HasWord o
  spare : ∀ e, t'.HasWord (spare e)

section Repair

variable (locals : Locals)
variable (spare : Expr → Offset)

namespace Expr

/- An expression, or the variable in place of it. -/
def withAddress : Expr → Expr
| var offset span =>
    if locals.HasWord offset then
      var offset span
    else
      var (spare (var offset span)) span
| e => var (spare e) e.span

/-
  The same expression with a spare variable in each place
  where an address is asked for and there is none.
-/
def repaired : Expr → Expr
| int value span => int value span
| var offset span =>
    withAddress locals spare (var offset span)
| binary op lhs rhs span =>
    binary op (repaired lhs) (repaired rhs) span
| assign target value span =>
    assign (withAddress locals spare target)
      (repaired value) span

end Expr

namespace Stmt

mutual

/- The same statement with all expressions repaired. -/
def repaired : Stmt → Stmt
| expr e span => expr (e.repaired locals spare) span
| ret e span => ret (e.repaired locals spare) span
| ifThen predicate thenArm span =>
    ifThen (predicate.repaired locals spare)
      (repaired thenArm) span
| ifElse predicate thenArm elseArm span =>
    ifElse (predicate.repaired locals spare)
      (repaired thenArm) (repaired elseArm) span
| whileLoop predicate body span =>
    whileLoop (predicate.repaired locals spare)
      (repaired body) span
| forLoop init predicate step body span =>
    forLoop (init.map (Expr.repaired locals spare))
      (predicate.map (Expr.repaired locals spare))
      (step.map (Expr.repaired locals spare))
      (repaired body) span
| block body span => block (repairedAll body) span

/- The same statements with all expressions repaired. -/
def repairedAll : List Stmt → List Stmt
| [] => []
| s :: ss => repaired s :: repairedAll ss

end

end Stmt

/- The same program with all expressions repaired. -/
def Program.repaired
    (p : Program) : Program :=
  { p with body := Stmt.repairedAll p.locals spare p.body }

end Repair

------------------------------------------------------------
-- Code That Is Cut
------------------------------------------------------------

namespace Emitter

section Append

variable {a b : Emitter}
variable {k : Nat}

/- After an emission without fault, the next one goes on. -/
theorem append_of_none
    (hFault : (a k).fault? = none) :
    (a ++ b) k =
      ⟨(a k).lines ++ (b (a k).labels).lines,
        (b (a k).labels).labels,
        (b (a k).labels).fault?⟩ := by
  change append a b k = _
  simp only [append, hFault]

/- After a fault there is nothing more. -/
theorem append_of_some
    {fault : Located Fault}
    (hFault : (a k).fault? = some fault) :
    (a ++ b) k = a k := by
  change append a b k = _
  simp only [append, hFault]

end Append

/-
  Emission that has a fault, next to its repair. Without a
  culprit they are the same. With one, the emission stops at
  its fault, and the repair goes on with its address.
-/
def CutAt
    (spare : Expr → Offset)
    (culprit? : Option Expr)
    (a b : Emitter) : Prop :=
  ∀ k,
    (b k).fault? = none ∧
    match culprit? with
    | none => a k = b k
    | some e =>
        (a k).fault? = some e.fault ∧
        ∃ rest,
          (b k).lines =
            (a k).lines ++
              .instr (.lea .rax (spare e)) :: rest

variable {spare : Expr → Offset}
variable {c c' : Option Expr}

theorem cutAt_lines
    (ls : List Line) :
    CutAt spare none (lines ls) (lines ls) :=
  fun _ => ⟨rfl, rfl⟩

theorem cutAt_instrs
    (is : List Instr) :
    CutAt spare none (instrs is) (instrs is) :=
  cutAt_lines _

theorem cutAt_nothing :
    CutAt spare none nothing nothing :=
  fun _ => ⟨rfl, rfl⟩

/- The first culprit of a sequence cuts it. -/
theorem CutAt.append
    {a a' b b' : Emitter}
    (hFirst : CutAt spare c a b)
    (hSecond : CutAt spare c' a' b') :
    CutAt spare (c.or c') (a ++ a') (b ++ b') := by
  intro k
  rcases hFirst k with ⟨hFine, hCut⟩
  rcases hSecond (b k).labels with ⟨hFine', hCut'⟩
  rw [append_of_none hFine]
  refine ⟨hFine', ?_⟩
  cases c with
  | some e =>
      rcases hCut with ⟨hFault, rest, hLines⟩
      rw [append_of_some hFault]
      refine ⟨hFault, rest ++ (b' (b k).labels).lines, ?_⟩
      simp [hLines]
  | none =>
      have hSame : a k = b k := hCut
      have hFault : (a k).fault? = none := by
        rwa [hSame]
      rw [append_of_none hFault, hSame]
      cases c' with
      | none =>
          have hSame' : a' (b k).labels = b' (b k).labels :=
            hCut'
          simp [hSame']
      | some e =>
          rcases hCut' with ⟨hFault, rest, hLines⟩
          refine ⟨hFault, rest, ?_⟩
          simp [hLines]

/- The fault is that of the culprit. -/
theorem CutAt.fault?_eq
    {a b : Emitter}
    (hCut : CutAt spare c a b)
    (k : Nat) :
    (a k).fault? = c.map Expr.fault := by
  rcases hCut k with ⟨hFine, hCut⟩
  cases c with
  | none =>
      rw [show a k = b k from hCut, hFine]
      rfl
  | some e =>
      exact hCut.1

theorem CutAt.withLabel
    {emit emit' : UInt32 → Emitter}
    (hCut : ∀ id, CutAt spare c (emit id) (emit' id)) :
    CutAt spare c (.withLabel emit) (.withLabel emit') :=
  fun k => hCut _ (k + 1)

end Emitter

------------------------------------------------------------
-- The First Culprit
------------------------------------------------------------

namespace Expr

variable {locals : Locals}

/- A target is not looked into if it is no variable. -/
theorem findSome?_parts_assign
    (target value : Expr)
    (span : Span) :
    (assign target value span).parts.findSome?
        (culprit? locals) =
      (if target.isVar then
        target.culprit? locals
      else
        some target).or
        (value.parts.findSome? (culprit? locals)) := by
  rw [parts_assign]
  cases hTarget : target.isVar with
  | false =>
      simp [culprit?, hTarget]
  | true =>
      cases target with
      | var offset s =>
          have hNode :
              culprit? locals
                (assign (var offset s) value span) =
                none :=
            rfl
          rw [List.findSome?_cons, hNode,
            List.findSome?_append, parts, inner,
            List.findSome?_singleton]
          rfl
      | int _ _ | binary _ _ _ _ | assign _ _ _ =>
          cases hTarget

variable {locals' : Locals}
variable {spare : Expr → Offset}

/- What has an address is loaded from there. -/
theorem code_withAddress
    (locals' : Locals)
    (e : Expr) :
    (e.withAddress locals spare).code locals' =
      (e.withAddress locals spare).address locals' ++
        .instrs [.load .rax .rax] := by
  unfold withAddress
  split
  · split <;> rfl
  · rfl

variable (hSupplies : locals'.Supplies locals spare)

include hSupplies

/- Code is cut at an address that does not exist. -/
theorem cutAt_address
    (e : Expr) :
    Emitter.CutAt spare
      (if e.isVar then e.culprit? locals else some e)
      (e.address locals)
      ((e.withAddress locals spare).address locals') := by
  have hAddress
      (o : Offset)
      (span : Span)
      (hHas : locals'.HasWord o) :
      address locals' (var o span) =
        .instrs [.lea .rax o] :=
    if_pos (Locals.hasWord_iff_contains.mp hHas)
  intro k
  cases e with
  | var offset span =>
      by_cases hHas : locals.HasWord offset
      · rw [withAddress, if_pos hHas,
          hAddress _ _ (hSupplies.kept offset hHas)]
        simp only [address, culprit?, isVar, hHas,
          ← Locals.hasWord_iff_contains, if_true]
        exact ⟨rfl, trivial⟩
      · rw [withAddress, if_neg hHas,
          hAddress _ _ (hSupplies.spare _)]
        simp only [address, culprit?, isVar, hHas,
          ← Locals.hasWord_iff_contains, if_true]
        exact ⟨rfl, rfl, [], rfl⟩
  | int value span | binary op lhs rhs span
  | assign target value span =>
      simp only [withAddress,
        hAddress _ _ (hSupplies.spare _)]
      exact ⟨rfl, rfl, [], rfl⟩

/- Code of an expression is cut at its first culprit. -/
theorem cutAt_code
    (e : Expr) :
    Emitter.CutAt spare
      (e.parts.findSome? (culprit? locals))
      (e.code locals)
      ((e.repaired locals spare).code locals') := by
  induction e with
  | int value span =>
      exact Emitter.cutAt_instrs _
  | var offset span =>
      have hCode :=
        (cutAt_address hSupplies (var offset span)).append
          (Emitter.cutAt_instrs [.load .rax .rax])
      rw [Option.or_none, isVar, if_pos rfl,
        ← code_withAddress] at hCode
      rw [parts, inner, List.findSome?_singleton]
      exact hCode
  | binary op lhs rhs span ihLhs ihRhs =>
      have hCode :=
        ihLhs.append
          ((Emitter.cutAt_instrs [.push .rax]).append
            (ihRhs.append (Emitter.cutAt_instrs
              (.mov .rdi .rax :: .pop .rax :: op.code))))
      rw [Option.or_none, Option.none_or,
        ← List.findSome?_append] at hCode
      exact hCode
  | assign target value span ihTarget ihValue =>
      have hCode :=
        (cutAt_address hSupplies target).append
          ((Emitter.cutAt_instrs [.push .rax]).append
            (ihValue.append (Emitter.cutAt_instrs
              [.pop .rdi, .store .rdi .rax])))
      rw [Option.or_none, Option.none_or,
        ← findSome?_parts_assign target value span] at hCode
      exact hCode

/- The same, for one that may be left out. -/
theorem cutAt_codeOption
    (e : Option Expr) :
    Emitter.CutAt spare
      ((e.toList.flatMap parts).findSome? (culprit? locals))
      (codeOption locals e)
      (codeOption locals'
        (e.map (repaired locals spare))) := by
  cases e with
  | none =>
      exact Emitter.cutAt_nothing
  | some e =>
      simpa [codeOption] using e.cutAt_code hSupplies

/- The same, for a predicate. -/
theorem cutAt_codeUnless
    (target : Label)
    (e : Expr) :
    Emitter.CutAt spare
      (e.parts.findSome? (culprit? locals))
      (e.codeUnless locals target)
      ((e.repaired locals spare).codeUnless locals'
        target) := by
  simpa [codeUnless] using
    (e.cutAt_code hSupplies).append
      (Emitter.cutAt_instrs [.cmpZero .rax, .je target])

end Expr

namespace Stmt

open Emitter (cutAt_lines cutAt_instrs)

variable {locals locals' : Locals}
variable {spare : Expr → Offset}

mutual

/- Code of a statement is cut at its first culprit. -/
theorem cutAt_code
    (hSupplies : locals'.Supplies locals spare) :
    (s : Stmt) →
    Emitter.CutAt spare
      ((s.lowered.flatMap Expr.parts).findSome?
        (Expr.culprit? locals))
      (s.code locals)
      ((s.repaired locals spare).code locals')
| expr e _ => by
    simpa [lowered, code, repaired] using
      e.cutAt_code hSupplies
| ret e _ => by
    simpa [lowered, code, repaired] using
      (e.cutAt_code hSupplies).append
        (cutAt_instrs [.jmp .atExit])
| ifThen predicate thenArm _ => by
    apply Emitter.CutAt.withLabel
    intro id
    simpa [lowered, List.findSome?_append] using
      (predicate.cutAt_codeUnless hSupplies
        ⟨.finish, id⟩).append
        ((cutAt_code hSupplies thenArm).append
          (cutAt_lines [.label ⟨.finish, id⟩]))
| ifElse predicate thenArm elseArm _ => by
    apply Emitter.CutAt.withLabel
    intro id
    simpa [lowered, List.findSome?_append] using
      (predicate.cutAt_codeUnless hSupplies
        ⟨.orElse, id⟩).append
        ((cutAt_code hSupplies thenArm).append
          ((cutAt_lines
            [.instr (.jmp ⟨.finish, id⟩),
             .label ⟨.orElse, id⟩]).append
            ((cutAt_code hSupplies elseArm).append
              (cutAt_lines [.label ⟨.finish, id⟩]))))
| whileLoop predicate body _ => by
    apply Emitter.CutAt.withLabel
    intro id
    simpa [lowered, List.findSome?_append] using
      (cutAt_lines [.label ⟨.begin, id⟩]).append
        ((predicate.cutAt_codeUnless hSupplies
          ⟨.finish, id⟩).append
          ((cutAt_code hSupplies body).append
            (cutAt_lines
              [.instr (.jmp ⟨.begin, id⟩),
               .label ⟨.finish, id⟩])))
| forLoop init predicate step body _ => by
    apply Emitter.CutAt.withLabel
    intro id
    have hStep :=
      (Expr.cutAt_codeOption hSupplies step).append
        (cutAt_lines
          [.instr (.jmp ⟨.begin, id⟩),
           .label ⟨.finish, id⟩])
    have hBody := (cutAt_code hSupplies body).append hStep
    -- The test of the predicate is left out with it.
    cases predicate with
    | none =>
        simpa [lowered, List.findSome?_append] using
          (Expr.cutAt_codeOption hSupplies init).append
            ((cutAt_lines [.label ⟨.begin, id⟩]).append
              (Emitter.cutAt_nothing.append hBody))
    | some e =>
        simpa [lowered, List.findSome?_append] using
          (Expr.cutAt_codeOption hSupplies init).append
            ((cutAt_lines [.label ⟨.begin, id⟩]).append
              ((e.cutAt_codeUnless hSupplies
                ⟨.finish, id⟩).append hBody))
| block body _ => by
    exact cutAt_codeAll hSupplies body

/- So is code of statements one after another. -/
theorem cutAt_codeAll
    (hSupplies : locals'.Supplies locals spare) :
    (ss : List Stmt) →
    Emitter.CutAt spare
      (((loweredAll ss).flatMap Expr.parts).findSome?
        (Expr.culprit? locals))
      (codeAll locals ss)
      (codeAll locals' (repairedAll locals spare ss))
| [] => by
    exact Emitter.cutAt_nothing
| s :: ss => by
    simpa [loweredAll, codeAll, repairedAll,
      List.findSome?_append] using
      (cutAt_code hSupplies s).append
        (cutAt_codeAll hSupplies ss)

end

end Stmt

------------------------------------------------------------
-- Programs That Are Cut
------------------------------------------------------------

namespace Program

/- Code of a program is cut at its first culprit. -/
theorem cutAt_lower
    {t : Locals}
    {spare : Expr → Offset}
    (p : Program)
    (hSupplies : t.Supplies p.locals spare) :
    Emitter.CutAt spare
      (p.nodes.findSome? (Expr.culprit? p.locals))
      (fun _ => p.lower)
      (fun _ =>
        (Emitter.instrs (prologue p.locals) ++
          (Stmt.codeAll t (p.repaired spare).body ++
            .lines epilogue)) 0) := by
  have hCode :=
    (Emitter.cutAt_instrs (prologue p.locals)).append
      ((Stmt.cutAt_codeAll hSupplies p.body).append
        (Emitter.cutAt_lines epilogue))
  rw [Option.none_or, Option.or_none] at hCode
  intro k
  exact hCode 0

/- A program has the fault of its first culprit. -/
theorem fault?_lower
    (p : Program) :
    p.lower.fault? =
      (p.nodes.findSome? (Expr.culprit? p.locals)).map
        Expr.fault := by
  -- Also the empty table can be supplied by another one.
  have hSupplies :
      Locals.Supplies ⟨p.locals.names ++ [""]⟩ p.locals
        (fun _ => ⟨8⟩) := by
    constructor
    · rintro o ⟨i, hLess, hBytes⟩
      refine ⟨i, Nat.lt_of_lt_of_le hLess ?_, hBytes⟩
      simp [Locals.size]
    · intro e
      refine ⟨0, ?_, by decide⟩
      simp [Locals.size]
  exact (p.cutAt_lower hSupplies).fault?_eq 0

/- A `for` reports its body before its step. -/
example :
    let p : Program :=
      ⟨mainName,
        [.forLoop none none (some (.var ⟨16⟩ ⟨6, 1⟩))
          (.expr
            (.assign (.int 1 ⟨9, 1⟩) (.var ⟨24⟩ ⟨13, 1⟩)
              ⟨9, 5⟩) ⟨9, 6⟩) ⟨0, 15⟩],
        ⟨["a"]⟩⟩
    p.lower.fault? = some ⟨.notAddressable, ⟨9, 1⟩⟩ := by
  decide

/- The line that computes the address of a variable. -/
theorem text_lea
    (target : Target)
    (o : Offset) :
    Line.text target (.instr (.lea .rax o)) ++ "\n" =
      "    lea rax, [rbp - " ++ o.text ++ "]\n" := by
  have hStart :
      "    lea rax, [rbp - " =
        "    " ++ ("lea " ++ ("rax" ++ ", [rbp - ")) := by
    decide
  have hEnd : "]\n" = "]" ++ "\n" := by
    decide
  rw [hStart, hEnd]
  simp only [Line.text, Instr.text, Reg.text,
    String.append_assoc]

/-
  What a culprit leaves of the text of a program. Repaired,
  the program goes on with the address.
-/
theorem exists_cut
    {p : Program}
    {culprit : Expr}
    (target : Target)
    (hFirst :
      p.nodes.findSome? (Expr.culprit? p.locals) =
        some culprit)
    (spare : Expr → p.locals.Slot) :
    ∃ cut rest,
      Assembly.text target p.name p.lower.lines =
        cut ++ "\n" ∧
      ∀ written,
        (p.repaired (fun e => (spare e).1)).generateInto
            target written =
          (written ++
            (cut ++
              ("    lea rax, [rbp - " ++
                (spare culprit).1.text ++ "]\n" ++ rest)),
            none) := by
  have hSupplies :
      p.locals.Supplies p.locals (fun e => (spare e).1) :=
    ⟨fun _ hHas => hHas, fun e => (spare e).2⟩
  have hCut := p.cutAt_lower hSupplies 0
  rw [hFirst] at hCut
  rcases hCut with ⟨hFine, -, rest, hLines⟩
  refine
    ⟨Assembly.unlines
        (Assembly.header target p.name ++
          p.lower.lines.map (Line.text target)),
      Assembly.unlines
        (rest.map (Line.text target) ++ [""]), ?_, ?_⟩
  · have hText :=
      Assembly.text_append target p.name p.lower.lines []
    rw [List.append_nil] at hText
    exact hText
  · intro written
    have hText :=
      Assembly.text_append target p.name p.lower.lines
        (.instr (.lea .rax (spare culprit).1) :: rest)
    rw [List.map_cons, List.cons_append,
      Assembly.unlines_cons, text_lea] at hText
    rw [← hText, ← hLines]
    exact congrArg (Prod.mk _) hFine

/-
  What writing a program does to a text, and where it stops.

  The text is kept, and what is appended does not depend on
  it. There is no fault exactly if values are assigned to
  variables only and all variables are in the table, which
  for fewer than 2^29 names means that it lists them. If
  there is one, it belongs to the first node in the order of
  the code that asks for an address which does not exist.
  What is appended then, without its empty line, is followed
  in the repaired program by the line that computes the
  address.
-/
theorem generateInto_stops_at_first_fault
    (p : Program)
    (target : Target) :
    ∃ appended fault?,
      (∀ written,
        p.generateInto target written =
          (written ++ appended, fault?)) ∧
      p.nodes.Perm p.exprs ∧
      (fault? = none ↔
        (∀ place value span,
          Expr.assign place value span ∈ p.exprs →
          place.isVar = true) ∧
        (∀ offset span,
          Expr.var offset span ∈ p.exprs →
          p.locals.HasWord offset)) ∧
      (p.locals.size < 2 ^ 29 →
        ∀ o,
          p.locals.HasWord o ↔
            ∃ name, (name, o) ∈ p.locals.entries) ∧
      (Nonempty p.locals.Slot ↔ p.locals.isEmpty = false) ∧
      ∀ fault,
        fault? = some fault →
        ∃ before node after culprit,
          p.nodes = before ++ node :: after ∧
          (∀ e ∈ before, e.culprit? p.locals = none) ∧
          node.culprit? p.locals = some culprit ∧
          fault = culprit.fault ∧
          ∀ spare : Expr → p.locals.Slot,
            ∃ cut rest,
              appended = cut ++ "\n" ∧
              ∀ written,
                (p.repaired
                    (fun e => (spare e).1)).generateInto
                    target written =
                  (written ++
                    (cut ++
                      ("    lea rax, [rbp - " ++
                        (spare culprit).1.text ++ "]\n" ++
                        rest)), none) := by
  refine
    ⟨Assembly.text target p.name p.lower.lines,
      p.lower.fault?, fun _ => rfl, p.nodes_perm, ?_,
      Locals.hasWord_iff_mem_entries,
      p.locals.nonempty_slot_iff, ?_⟩
  · have hNodes :
        (∀ e ∈ p.nodes, e.culprit? p.locals = none) ↔
          ∀ e ∈ p.exprs, e.culprit? p.locals = none := by
      simp only [p.nodes_perm.mem_iff]
    rw [← Expr.culprit?_eq_none_iff, ← hNodes,
      ← List.findSome?_eq_none_iff, fault?_lower,
      Option.map_eq_none_iff]
  · intro fault hFault
    rw [fault?_lower, Option.map_eq_some_iff] at hFault
    rcases hFault with ⟨culprit, hFirst, rfl⟩
    rcases List.findSome?_eq_some_iff.mp hFirst with
      ⟨before, node, after, hNodes, hNode, hBefore⟩
    exact ⟨before, node, after, culprit, hNodes, hBefore,
      hNode, rfl, exists_cut target hFirst⟩

end Program

end WordLang
