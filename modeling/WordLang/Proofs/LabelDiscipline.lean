import WordLang.Proofs.CompilerCorrectness
import WordLang.Proofs.BranchOrder

/-
  This file proves that labels are used properly in texts.

  A line that ends in a colon defines a label, and a jump
  ends in the label that it goes to. In the text of a main
  routine every label is defined once and every jump goes
  to a label. The exit comes last, and the other labels are
  those of the branching and looping statements, which have
  the numbers from one on.

  Key definitions include:
    * `WordLang.Assembly.definitions`
    * `WordLang.Assembly.jumpTargets`
    * `WordLang.Program.OwnsNumber`
    * `WordLang.Program.KeepsLabels`

  Key theorems include:
    * `WordLang.Assembly.definitions_text`
    * `WordLang.Assembly.jumpTargets_text`
    * `WordLang.Program.generate_numbers_branches`
-/

namespace WordLang

------------------------------------------------------------
-- Written Labels
------------------------------------------------------------

namespace Assembly

/- The label that a written line defines. -/
def definition?
    (line : List Char) : Option (List Char) :=
  if line.getLast? = some ':' then
    some line.dropLast
  else
    none

/- The labels that written lines define, in order. -/
def definitions
    (lines : List (List Char)) : List (List Char) :=
  lines.filterMap definition?

/- The labels that written lines jump to, in order. -/
def jumpTargets
    (lines : List (List Char)) : List (List Char) :=
  lines.filterMap fun line =>
    (splitJump? line).map Prod.snd

/- Some written lines define a label or jump to it. -/
def Names
    (lines : List (List Char))
    (name : List Char) : Prop :=
  name ∈ definitions lines ∨ name ∈ jumpTargets lines

/- The name of the label with a number. -/
def labelName
    (target : Target)
    (role : Label.Role)
    (n : Nat) : List Char :=
  (target.labelStem ++ role.text ++ "." ++
    toString n).toList

theorem definitions_append
    (lines lines' : List (List Char)) :
    definitions (lines ++ lines') =
      definitions lines ++ definitions lines' :=
  List.filterMap_append

theorem jumpTargets_append
    (lines lines' : List (List Char)) :
    jumpTargets (lines ++ lines') =
      jumpTargets lines ++ jumpTargets lines' :=
  List.filterMap_append

theorem names_append
    {lines lines' : List (List Char)}
    {name : List Char} :
    Names (lines ++ lines') name ↔
      Names lines name ∨ Names lines' name := by
  simp only [Names, definitions_append, jumpTargets_append,
    List.mem_append]
  exact or_or_or_comm

end Assembly

open Assembly

theorem Line.definition?_text
    (target : Target)
    (l : Line) :
    definition? (l.text target).toList =
      l.label?.map fun l => (l.text target).toList := by
  unfold definition?
  cases l with
  | label l =>
      have hChars :
          (text target (.label l)).toList =
            (l.text target).toList ++ [':'] := by
        simp [text]
      rw [hChars, if_pos List.getLast?_concat,
        List.dropLast_concat]
      rfl
  | instr i =>
      have hColon :
          (text target (.instr i)).toList.getLast? ≠
            some ':' := by
        intro hLast
        exact not_mem_text_instr target i (.inl rfl)
          (List.mem_of_getLast? hLast)
      rw [if_neg hColon]
      rfl

namespace Assembly

variable (target : Target)

theorem definitions_written
    (ls : List Line) :
    definitions (written target ls) =
      (labelsOf ls).map fun l => (l.text target).toList := by
  unfold definitions written labelsOf
  rw [List.filterMap_map, List.map_filterMap]
  congr 1
  funext l
  exact l.definition?_text target

theorem jumpTargets_written
    (ls : List Line) :
    jumpTargets (written target ls) =
      (jumpsOf ls).map fun l => (l.text target).toList := by
  unfold jumpTargets written jumpsOf
  rw [List.filterMap_map, List.map_filterMap]
  congr 1
  funext l
  simp only [Function.comp_apply, l.splitJump?_text target,
    Option.map_map]
  rfl

end Assembly

/- Different labels are written differently. -/
theorem Label.text_injective
    (target : Target) :
    Function.Injective
      fun l : Label => (l.text target).toList := by
  intro l l' hSame
  have hRead := Label.read?_text target l
  dsimp only at hSame
  rw [hSame, Label.read?_text] at hRead
  exact (Option.some.inj hRead).symm

theorem Label.toList_text_mk
    (target : Target)
    (role : Role)
    {n : Nat}
    (hFits : n < 2 ^ 32) :
    (Label.text target ⟨role, UInt32.ofNat n⟩).toList =
      labelName target role n := by
  unfold text labelName
  rw [UInt32.toNat_ofNat', Nat.mod_eq_of_lt hFits]

namespace Assembly

variable {target : Target}
variable {role : Label.Role}
variable {n : Nat}
variable {ls : List Line}

theorem labelName_mem_definitions_iff
    (hFits : n < 2 ^ 32) :
    labelName target role n ∈
        definitions (written target ls) ↔
      ⟨role, UInt32.ofNat n⟩ ∈ labelsOf ls := by
  rw [definitions_written, ← Label.toList_text_mk target
    role hFits]
  exact List.mem_map_of_injective
    (Label.text_injective target)

theorem labelName_mem_jumpTargets_iff
    (hFits : n < 2 ^ 32) :
    labelName target role n ∈
        jumpTargets (written target ls) ↔
      ⟨role, UInt32.ofNat n⟩ ∈ jumpsOf ls := by
  rw [jumpTargets_written, ← Label.toList_text_mk target
    role hFits]
  exact List.mem_map_of_injective
    (Label.text_injective target)

theorem names_labelName_iff
    (hFits : n < 2 ^ 32) :
    Names (written target ls) (labelName target role n) ↔
      Mentions ls ⟨role, UInt32.ofNat n⟩ :=
  or_congr (labelName_mem_definitions_iff hFits)
    (labelName_mem_jumpTargets_iff hFits)

/- The head of a text defines the symbol of the routine. -/
theorem definitions_header
    (target : Target) :
    definitions
        ((header target Program.mainName).map
          String.toList) =
      [(symbol target Program.mainName).toList] := by
  cases target <;> rfl

theorem jumpTargets_header
    (target : Target) :
    jumpTargets
        ((header target Program.mainName).map
          String.toList) = [] := by
  cases target <;> rfl

/- The labels that a text defines: the symbol comes first. -/
theorem definitions_text
    (target : Target)
    (ls : List Line) :
    definitions
        (linesOf (text target Program.mainName ls)) =
      (symbol target Program.mainName).toList ::
        (labelsOf ls).map
          fun l => (l.text target).toList := by
  have hEnd : definitions [[], []] = [] := rfl
  rw [linesOf, splitOn_text, definitions_append,
    definitions_append, definitions_header,
    definitions_written, hEnd, List.append_nil,
    List.singleton_append]

theorem jumpTargets_text
    (target : Target)
    (ls : List Line) :
    jumpTargets
        (linesOf (text target Program.mainName ls)) =
      (jumpsOf ls).map fun l => (l.text target).toList := by
  have hEnd : jumpTargets [[], []] = [] := rfl
  rw [linesOf, splitOn_text, jumpTargets_append,
    jumpTargets_append, jumpTargets_header,
    jumpTargets_written, hEnd, List.append_nil,
    List.nil_append]

/- The symbol of the main routine is no local label. -/
theorem toList_text_ne_symbol
    (target : Target)
    (l : Label) :
    (l.text target).toList ≠
      (symbol target Program.mainName).toList := by
  rw [Label.toList_text]
  intro hSame
  cases target <;> cases hSame

/- The head of a text names no local label. -/
theorem not_names_header
    (target : Target)
    (role : Label.Role)
    (n : Nat) :
    ¬ Names
        ((header target Program.mainName).map
          String.toList)
        (labelName target role n) := by
  intro hNames
  rw [Names, definitions_header, jumpTargets_header,
    List.mem_singleton] at hNames
  rcases hNames with hSymbol | hNone
  · unfold labelName at hSymbol
    simp only [String.toList_append,
      List.append_assoc] at hSymbol
    cases target <;> cases hSymbol
  · cases hNone

end Assembly

------------------------------------------------------------
-- Texts of Programs
------------------------------------------------------------

namespace Program

variable {p : Program}

/-
  The code of `s` begins after `start` of the written lines
  and is emitted with `n` labels in use. It defines the
  labels of its own with the next number and jumps to no
  other label with that number, and none is outside of it.
-/
def OwnsNumber
    (target : Target)
    (locals : Locals)
    (lines : List (List Char))
    (n : Nat)
    (s : Stmt)
    (start : Nat) : Prop :=
  ∃ before own after n',
    lines = before ++ (written target own ++ after) ∧
    before.length = start ∧
    (s.code locals).Emits n own n' ∧
    ∀ role,
      let name := labelName target role (n + 1)
      (name ∈ definitions (written target own) ↔
        role ∈ s.roles) ∧
      (name ∈ jumpTargets (written target own) →
        role ∈ s.roles) ∧
      ¬ Names before name ∧ ¬ Names after name

/-
  What holds of the labels in the lines of a text for a
  program.
-/
structure KeepsLabels
    (p : Program)
    (target : Target)
    (lines : List (List Char)) : Prop where
  unique : (definitions lines).Nodup
  entry : (symbol target p.name).toList ∈ definitions lines
  jumps : jumpTargets lines ⊆ definitions lines
  /- The exit comes after the code of the body. -/
  exit :
    ∃ front body,
      (Stmt.codeAll p.locals p.body).Emits 0 body
        (Stmt.branches p.body).length ∧
      lines =
        front ++ (written target body ++
          ((labelName target .exit 0 ++ [':']) ::
            ["    mov rsp, rbp".toList,
              "    pop rbp".toList,
              "    ret".toList,
              [],
              []]))
  /- There are no other labels than these. -/
  known :
    ∀ name ∈ definitions lines,
      name = (symbol target p.name).toList ∨
      name = labelName target .exit 0 ∨
      ∃ n s role,
        (Stmt.branches p.body)[n]? = some s ∧
        role ∈ s.roles ∧
        name = labelName target role (n + 1)
  /- The branches are numbered from one, outer ones first. -/
  numbered :
    ∃ starts : List Nat,
      starts.length = (Stmt.branches p.body).length ∧
      starts.Pairwise (· < ·) ∧
      ∀ n s start,
        (Stmt.branches p.body)[n]? = some s →
        starts[n]? = some start →
        OwnsNumber target p.locals lines n s start

/- The numbers of a program's branches, in its text. -/
theorem ownsNumber_of_standsAt
    {target : Target}
    {locals : Locals}
    {ls before own after : List Line}
    {n k' start : Nat}
    {s : Stmt}
    (hFits : n + 1 < 2 ^ 32)
    (hStands :
      Stmt.StandsAt locals ls n s start before own after
        k') :
    OwnsNumber target locals
      (linesOf (text target mainName ls)) n s
      ((header target mainName).length + start) := by
  refine ⟨(header target mainName).map String.toList ++
      written target before, own,
    written target after ++ [[], []], k', ?_, ?_,
    hStands.code, ?_⟩
  · rw [linesOf, splitOn_text, hStands.lines]
    simp [written]
  · simp [written, hStands.start]
  · intro role
    have hNumber : (UInt32.ofNat (n + 1)).toNat = n + 1 := by
      rw [UInt32.toNat_ofNat', Nat.mod_eq_of_lt hFits]
    have hOwn := Stmt.mem_labelsOf_code_iff
      (l := ⟨role, UInt32.ofNat (n + 1)⟩) hStands.code
      hStands.fits hStands.control hNumber
    have hApart := fun hMentions =>
      hStands.apart ⟨role, UInt32.ofNat (n + 1)⟩ hMentions
        hNumber
    refine ⟨?_, ?_, ?_, ?_⟩
    · rw [labelName_mem_definitions_iff hFits]
      exact hOwn.1
    · rw [labelName_mem_jumpTargets_iff hFits]
      exact hOwn.2
    · rw [names_append, names_labelName_iff hFits]
      rintro (hHeader | hBefore)
      · exact not_names_header target role _ hHeader
      · exact hApart (Or.inl hBefore)
    · rw [names_append, names_labelName_iff hFits]
      rintro (hAfter | hEmpty)
      · exact hApart (Or.inr hAfter)
      · rcases hEmpty with hNone | hNone <;> cases hNone

theorem nodup_definitions_text
    {target : Target}
    (hFault : p.lower.fault? = none)
    (hCount : (Stmt.branches p.body).length < 2 ^ 32) :
    (definitions
      (linesOf
        (text target mainName p.lower.lines))).Nodup := by
  rw [definitions_text, List.nodup_cons]
  constructor
  · intro hSymbol
    rcases List.mem_map.mp hSymbol with ⟨l, -, hSame⟩
    exact toList_text_ne_symbol target l hSame
  · apply List.Nodup.map (Label.text_injective target)
    apply nodup_labels_lower hFault
    rwa [controls, ← Stmt.length_branches]

theorem exists_branch_of_mem_definitions
    {target : Target}
    {name : List Char}
    (hFault : p.lower.fault? = none)
    (hCount : (Stmt.branches p.body).length < 2 ^ 32)
    (hMem :
      name ∈ definitions
        (linesOf (text target mainName p.lower.lines))) :
    name = (symbol target mainName).toList ∨
      name = labelName target .exit 0 ∨
      ∃ n s role,
        (Stmt.branches p.body)[n]? = some s ∧
        role ∈ s.roles ∧
        name = labelName target role (n + 1) := by
  rw [definitions_text, List.mem_cons, List.mem_map] at hMem
  refine hMem.imp_right ?_
  rintro ⟨l, hLabel, rfl⟩
  rcases exists_branch_of_mem_labels hFault hCount hLabel
    with rfl | ⟨n, s, hBranch, hRole, hNumber⟩
  · exact Or.inl rfl
  · refine Or.inr ⟨n, s, l.role, hBranch, hRole, ?_⟩
    rw [labelName, ← hNumber]
    rfl

/- The exit is written after the code of the body. -/
theorem linesOf_text_eq_append
    {target : Target}
    (hFault : p.lower.fault? = none) :
    ∃ front body,
      (Stmt.codeAll p.locals p.body).Emits 0 body
        (Stmt.branches p.body).length ∧
      linesOf (text target mainName p.lower.lines) =
        front ++ (written target body ++
          ((labelName target .exit 0 ++ [':']) ::
            ["    mov rsp, rbp".toList,
              "    pop rbp".toList,
              "    ret".toList,
              [],
              []])) := by
  rcases emits_lower hFault with ⟨body, hBody, hLines⟩
  have hLabels := (Stmt.emits_codeAll hBody).1
  rw [Nat.zero_add, ← Stmt.length_branches] at hLabels
  rw [hLabels] at hBody
  have hEpilogue :
      written target epilogue ++ [[], []] =
        (labelName target .exit 0 ++ [':']) ::
          ["    mov rsp, rbp".toList,
            "    pop rbp".toList,
            "    ret".toList,
            [],
            []] := by
    cases target <;> rfl
  refine ⟨(header target mainName).map String.toList ++
      written target ((prologue p.locals).map .instr),
    body, hBody, ?_⟩
  rw [linesOf, splitOn_text, hLines, ← hEpilogue]
  simp [written]

theorem exists_numbers
    {target : Target}
    (hFault : p.lower.fault? = none)
    (hCount : (Stmt.branches p.body).length < 2 ^ 32) :
    ∃ starts : List Nat,
      starts.length = (Stmt.branches p.body).length ∧
      starts.Pairwise (· < ·) ∧
      ∀ n s start,
        (Stmt.branches p.body)[n]? = some s →
        starts[n]? = some start →
        OwnsNumber target p.locals
          (linesOf (text target mainName p.lower.lines))
          n s start := by
  rcases exists_laidOut hFault hCount with ⟨starts, hLaid⟩
  refine ⟨starts.map ((header target mainName).length + ·),
    ?_, ?_, ?_⟩
  · rw [List.length_map, hLaid.length_eq]
  · exact hLaid.pairwise.map _
      fun _ _ hOrder => Nat.add_lt_add_left hOrder _
  · intro n s start hBranch hStart
    rw [List.getElem?_map] at hStart
    rcases Option.map_eq_some_iff.mp hStart with
      ⟨i, hFound, rfl⟩
    rcases hLaid.standsAt hBranch hFound with
      ⟨before, own, after, k', hStands⟩
    rw [Nat.zero_add] at hStands
    have hBound := (List.getElem?_eq_some_iff.mp hBranch).1
    exact ownsNumber_of_standsAt (by omega) hStands

/-
  The labels in the text of the main routine are defined
  once, jumps go to labels, and the branches have the
  numbers from one on.
-/
theorem generate_numbers_branches
    (p : Program)
    (target : Target)
    (text : String)
    (hName : p.name = mainName)
    (hCount : (Stmt.branches p.body).length < 2 ^ 32)
    (hText : p.generate target = .ok text) :
    KeepsLabels p target (linesOf text) := by
  rcases lower_of_generate hText with ⟨hFault, rfl⟩
  have hSymbol := congrArg (symbol target) hName
  rw [hName]
  constructor
  · exact nodup_definitions_text hFault hCount
  · rw [definitions_text, hSymbol]
    exact List.mem_cons_self
  · rw [definitions_text, jumpTargets_text]
    apply List.subset_cons_of_subset
    exact List.map_subset _ (jumps_lower hFault)
  · exact linesOf_text_eq_append hFault
  · intro name hMem
    rw [hSymbol]
    exact exists_branch_of_mem_definitions hFault hCount hMem
  · exact exists_numbers hFault hCount

/-
  The program
  `for (;;) if (x) return 1; else while (x) x = 0;`.
-/
def threeBranches : Program where
  name := mainName
  locals := ⟨["x"]⟩
  body :=
    let at0 : Span := ⟨0, 0⟩
    let x : Expr := .var ⟨8⟩ at0
    [.forLoop none none none
        (.ifElse x
          (.ret (.int 1 at0) at0)
          (.whileLoop x
            (.expr (.assign x (.int 0 at0) at0) at0) at0)
          at0)
        at0]

theorem threeBranches_numbered :
    threeBranches.name = mainName ∧
    (Stmt.branches threeBranches.body).map Stmt.roles =
      [[.begin, .finish], [.orElse, .finish],
        [.begin, .finish]] ∧
    ∃ text,
      threeBranches.generate .darwin = .ok text ∧
      KeepsLabels threeBranches .darwin (linesOf text) :=
  ⟨rfl, rfl, _, rfl,
    generate_numbers_branches threeBranches .darwin _ rfl
      (by decide) rfl⟩

end Program

end WordLang
