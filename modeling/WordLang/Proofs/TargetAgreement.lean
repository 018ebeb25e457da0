import WordLang.Compile
import WordLang.Proofs.AssemblyReader

/-
  This file proves that the systems get the same code.

  A program has a fault for one system if it has the same
  fault for the other. Otherwise the two texts differ in
  their heads and in how local labels start, and a line in
  which no label stands is the same in both.

  Key definitions include:
    * `WordLang.Assembly.renameLabel`
    * `WordLang.Assembly.relabel`

  Key theorems include:
    * `WordLang.Line.toList_text_darwin`
    * `WordLang.Assembly.linesOf_code_darwin`
    * `WordLang.Program.generate_agrees_between_systems`
-/

namespace WordLang

------------------------------------------------------------
-- Lines
------------------------------------------------------------

namespace Assembly

/- A label of Linux, with the start it has on Darwin. -/
def renameLabel : List Char → List Char
| '.' :: 'L' :: '.' :: name => 'L' :: '.' :: name
| cs => cs

/-
  A line of Linux as Darwin has it. The labels that jumps go
  to and those that are defined start otherwise, and nothing
  else changes.
-/
def relabel
    (line : List Char) : List Char :=
  match splitJump? line with
  | some (start, label) => start ++ renameLabel label
  | none =>
      if line.getLast? = some ':' then
        renameLabel line
      else
        line

/- A written label is renamed. -/
theorem renameLabel_text
    (l : Label)
    (cs : List Char) :
    renameLabel ((l.text .linux).toList ++ cs) =
      (l.text .darwin).toList ++ cs := by
  rw [Label.toList_text, Label.toList_text]
  rfl

/- An indented line is no label. -/
theorem renameLabel_indented
    (cs : List Char) :
    renameLabel ("    ".toList ++ cs) =
      "    ".toList ++ cs :=
  rfl

end Assembly

/- Other instructions than jumps are written alike. -/
theorem Instr.text_darwin_of_jump?_eq_none
    {i : Instr}
    (hJump : Line.jump? (.instr i) = none) :
    i.text .darwin = i.text .linux := by
  cases i with
  | jmp l | je l =>
      cases hJump
  | _ =>
      rfl

/- Each line is written for Darwin as for Linux. -/
theorem Line.toList_text_darwin
    (l : Line) :
    (l.text .darwin).toList =
      Assembly.relabel (l.text .linux).toList := by
  unfold Assembly.relabel
  rw [splitJump?_text]
  cases l with
  | label l =>
      have hColon :
          (text .linux (.label l)).toList =
            (l.text .linux).toList ++ [':'] := by
        simp [text]
      simp only [jump?, Option.map_none, hColon,
        List.getLast?_concat, if_true,
        Assembly.renameLabel_text]
      simp [text]
  | instr i =>
      cases hJump : jump? (.instr i) with
      | none =>
          rw [text, text, String.toList_append,
            String.toList_append,
            Instr.text_darwin_of_jump?_eq_none hJump]
          simp only [Option.map_none,
            Assembly.renameLabel_indented, ite_self]
      | some jump =>
          have hName (l : Label) :=
            Assembly.renameLabel_text l []
          simp only [List.append_nil] at hName
          cases i <;> cases hJump <;>
            simp only [Option.map_some, hName] <;>
            simp [text, Instr.text]

------------------------------------------------------------
-- Texts
------------------------------------------------------------

namespace Assembly

theorem unlines_append
    (ls ls' : List String) :
    unlines (ls ++ ls') = unlines ls ++ unlines ls' := by
  simp [unlines, String.join_append]

theorem unlines_cons
    (l : String)
    (ls : List String) :
    unlines (l :: ls) = l ++ "\n" ++ unlines ls := by
  simp [unlines, String.join_cons]

/- The text of some lines, before those that follow. -/
theorem text_append
    (target : Target)
    (name : String)
    (lines rest : List Line) :
    text target name (lines ++ rest) =
      unlines
        (header target name ++
          lines.map (Line.text target)) ++
      unlines (rest.map (Line.text target) ++ [""]) := by
  rw [← unlines_append, text, List.map_append]
  simp only [List.append_assoc]

/- The text of a routine after its head. -/
def code
    (target : Target)
    (lines : List Line) : String :=
  unlines (lines.map (Line.text target) ++ [""])

theorem text_eq_append
    (target : Target)
    (name : String)
    (lines : List Line) :
    text target name lines =
      unlines (header target name) ++
        code target lines := by
  rw [text, List.append_assoc, unlines_append]
  rfl

theorem linesOf_code
    (target : Target)
    (lines : List Line) :
    linesOf (code target lines) =
      written target lines ++ [[], []] := by
  have hLines :
      ∀ l ∈ lines.map (Line.text target) ++ [""],
        '\n' ∉ l.toList := by
    intro l hMember
    rcases List.mem_append.mp hMember with hCode | hEmpty
    · obtain ⟨line, -, rfl⟩ := List.mem_map.mp hCode
      exact Line.newline_not_mem_text target line
    · rw [List.mem_singleton.mp hEmpty]
      decide
  rw [linesOf, code, splitOn_unlines _ hLines]
  simp [written]

/- The code for Darwin is that for Linux, line by line. -/
theorem linesOf_code_darwin
    (lines : List Line) :
    linesOf (code .darwin lines) =
      (linesOf (code .linux lines)).map relabel := by
  have hLine :
      (fun l => (Line.text .darwin l).toList) =
        relabel ∘ fun l => (Line.text .linux l).toList :=
    funext Line.toList_text_darwin
  rw [linesOf_code, linesOf_code, List.map_append,
    written, written, List.map_map, hLine]
  rfl

end Assembly

namespace Program

open Assembly

/-
  Either both systems have the same fault, or both have a
  text. Then the heads are as given, and each line of code
  for Darwin is the line for Linux with its label renamed.
-/
theorem generate_agrees_between_systems
    (p : Program) :
    (∃ fault,
      p.generate .linux = .error fault ∧
      p.generate .darwin = .error fault) ∨
    ∃ code code',
      let entry := if p.name = "main" then "_main" else p.name
      p.generate .linux =
        .ok (unlines
            [".intel_syntax noprefix",
              ".section .note.GNU-stack,\"\",@progbits",
              "",
              ".section .text",
              ".globl " ++ p.name,
              p.name ++ ":"] ++ code) ∧
      p.generate .darwin =
        .ok (unlines
            [".intel_syntax noprefix",
              "",
              ".section " ++
                "__TEXT,__text,regular,pure_instructions",
              ".globl " ++ entry,
              entry ++ ":"] ++ code') ∧
      (linesOf code').length = (linesOf code).length ∧
      linesOf code' = (linesOf code).map relabel := by
  cases hFault : p.lower.fault? with
  | some fault =>
      left
      refine ⟨fault, ?_, ?_⟩ <;>
        simp only [generate, hFault]
  | none =>
      right
      have hLinux : symbol .linux p.name = p.name := by
        unfold symbol
        split
        · rename_i hMain
          exact hMain.symm
        · rfl
      refine ⟨code .linux p.lower.lines,
        code .darwin p.lower.lines, ?_, ?_, ?_,
        linesOf_code_darwin p.lower.lines⟩
      · simp only [generate, hFault, text_eq_append, header,
          hLinux]
        rfl
      · simp only [generate, hFault, text_eq_append]
        rfl
      · rw [linesOf_code_darwin, List.length_map]

end Program

end WordLang
