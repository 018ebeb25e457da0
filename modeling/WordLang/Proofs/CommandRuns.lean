import WordLang.Proofs.DeepOutlines
import WordLang.Proofs.DiskWrites
import WordLang.Proofs.ReportText

/-
  This file says what a run of the command leaves behind.

  A run goes through its stages on its own. It gets as far
  as the compiler does on the same source, and it reports
  the error of the compiler. The disk is written to at the
  end, when nothing can fail any more, and only at one
  place. An outline that is too deep ends the run as well.

  Key definitions include:
    * `WordLang.Invocation.HasSource`
    * `WordLang.Invocation.Yields`
    * `WordLang.Invocation.Rejects`
    * `WordLang.Invocation.Overflows`
    * `WordLang.Outcome.Refuses`
    * `WordLang.Invocation.Settles`

  Key theorems include:
    * `WordLang.compile_eq_error_iff`
    * `WordLang.Invocation.result_eq_some_iff`
    * `WordLang.Invocation.result_eq_error_iff`
    * `WordLang.Invocation.run_settles`
-/

namespace WordLang

------------------------------------------------------------
-- Stages of the Compiler
------------------------------------------------------------

/- What is read as a program is lexed and parsed. -/
theorem programOf_eq_ok_iff
    {src : String}
    {p : Program} :
    programOf src = .ok p ↔
      ∃ s, lex src = .ok s ∧ Program.parse s = .ok p := by
  cases hLex : lex src with
  | error failure =>
      simp [programOf, tokensOf, hLex, bind, Except.bind]
  | ok s =>
      cases hParse : Program.parse s with
      | error e =>
          simp [programOf, tokensOf, hLex, bind, Except.bind,
            programOfTokens, hParse]
      | ok q =>
          simp [programOf, tokensOf, hLex, bind, Except.bind,
            programOfTokens, hParse]

/- A source that is no program is not compiled. -/
theorem compile_of_programOf_error
    {src : String}
    {e : CompileError}
    (hError : programOf src = .error e)
    (target : Target) :
    compile src target = .error e := by
  rw [compile, hError]
  rfl

/- The code of a program is the code of its source. -/
theorem compile_of_programOf_ok
    {src : String}
    {p : Program}
    (hProgram : programOf src = .ok p)
    (target : Target) :
    compile src target =
      match p.generate target with
      | .ok text => .ok text
      | .error fault => .error (.internal fault) := by
  rw [compile, hProgram]
  rfl

/- A fault of a program does not depend on the system. -/
theorem Program.generate_eq_error_iff
    {p : Program}
    {target : Target}
    {fault : Located Fault} :
    p.generate target = .error fault ↔
      p.lower.fault? = some fault := by
  unfold generate
  cases hFault : p.lower.fault? with
  | none =>
      simp [hFault]
  | some other =>
      simp [hFault]

/- Neither does an error of a source. -/
theorem compile_error_of_target
    {src : String}
    {target : Target}
    {e : CompileError}
    (hError : compile src target = .error e)
    (other : Target) :
    compile src other = .error e := by
  cases hProgram : programOf src with
  | error e' =>
      rw [compile_of_programOf_error hProgram] at hError ⊢
      exact hError
  | ok p =>
      rw [compile_of_programOf_ok hProgram] at hError ⊢
      cases hCode : p.generate target with
      | ok text =>
          rw [hCode] at hError
          cases hError
      | error fault =>
          rw [hCode] at hError
          rw [Program.generate_eq_error_iff.mpr
            (Program.generate_eq_error_iff.mp hCode)]
          exact hError

/- The program of a source that is not too long has code. -/
theorem compile_eq_error_iff
    {src : String}
    (hSize : src.utf8ByteSize < 2 ^ 28)
    (target : Target)
    (e : CompileError) :
    compile src target = .error e ↔
      programOf src = .error e := by
  constructor
  · intro hError
    cases hProgram : programOf src with
    | error e' =>
        rw [compile_of_programOf_error hProgram] at hError
        cases hError
        rfl
    | ok p =>
        rcases programOf_eq_ok_iff.mp hProgram with
          ⟨s, hLex, hParse⟩
        have hTokens : s.tokens.length < 2 ^ 28 :=
          Nat.lt_of_le_of_lt (length_tokens_le_of_lex hLex)
            hSize
        rcases sound_of_parse hTokens hParse with
          ⟨hResolved, -, -⟩
        rcases Program.generate_of_resolved hResolved
            target with
          ⟨text, hText⟩
        rw [compile_of_parse hLex hParse hText] at hError
        cases hError
  · intro hError
    exact compile_of_programOf_error hError target

namespace Invocation

------------------------------------------------------------
-- Stages of a Run
------------------------------------------------------------

/- A text is the source of a run. -/
def HasSource
    (inv : Invocation)
    (disk : Disk)
    (src : String) : Prop :=
  match inv.input with
  | .source text => src = text
  | .file path => disk.read path = .ok src

/- A text is what the wanted stage makes of a source. -/
def Yields
    (inv : Invocation)
    (src text : String) : Prop :=
  match inv.stage with
  | .tokens => ∃ s, lex src = .ok s ∧ text = s.listing
  | .ast =>
      ∃ p,
        programOf src = .ok p ∧ p.outlineText? = some text
  | .asm => compile src inv.target = .ok text

/- The wanted stage finds an error in a source. -/
def Rejects
    (inv : Invocation)
    (src : String)
    (e : CompileError) : Prop :=
  match inv.stage with
  | .tokens =>
      ∃ failure,
        lex src = .error failure ∧ e = .lex failure.error
  | .ast => programOf src = .error e
  | .asm => compile src inv.target = .error e

/- An outline is wanted that has too deep a line. -/
def Overflows
    (inv : Invocation)
    (src : String) : Prop :=
  inv.stage = .ast ∧
    ∃ p,
      programOf src = .ok p ∧
      ∃ line ∈ p.outline, Outline.maxIndent < line.indent

variable {inv : Invocation}
variable {src text : String}
variable {e : CompileError}

/- The tokens of a source are listed. -/
theorem result_of_tokens
    (hStage : inv.stage = .tokens) :
    inv.result src =
      match lex src with
      | .ok s => .ok (some s.listing)
      | .error failure => .error (.lex failure.error) := by
  rw [result, tokensOf]
  cases lex src with
  | error failure => rfl
  | ok s =>
      simp [hStage, bind, Except.bind, pure, Except.pure]

/- The program of a source is written as an outline. -/
theorem result_of_ast
    (hStage : inv.stage = .ast) :
    inv.result src =
      match programOf src with
      | .ok p => .ok p.outlineText?
      | .error e => .error e := by
  rw [result, programOf]
  cases tokensOf src with
  | error e => rfl
  | ok s =>
      simp only [hStage, bind, Except.bind, pure, Except.pure]
      cases programOfTokens s <;> rfl

/- The code of a source is what the compiler makes of it. -/
theorem result_of_asm
    (hStage : inv.stage = .asm) :
    inv.result src =
      match compile src inv.target with
      | .ok text => .ok (some text)
      | .error e => .error e := by
  rw [result, compile, programOf]
  cases tokensOf src with
  | error e => rfl
  | ok s =>
      simp only [hStage, bind, Except.bind, pure, Except.pure]
      cases programOfTokens s with
      | error e => rfl
      | ok p =>
          simp only
          cases p.generate inv.target <;> rfl

theorem result_eq_some_iff :
    inv.result src = .ok (some text) ↔
      inv.Yields src text := by
  unfold Yields
  cases hStage : inv.stage with
  | tokens =>
      rw [result_of_tokens hStage]
      cases lex src with
      | error failure => simp
      | ok s => simp [eq_comm]
  | ast =>
      rw [result_of_ast hStage]
      cases programOf src with
      | error e => simp
      | ok p => simp
  | asm =>
      rw [result_of_asm hStage]
      cases compile src inv.target with
      | error e => simp
      | ok code => simp

theorem result_eq_error_iff :
    inv.result src = .error e ↔ inv.Rejects src e := by
  unfold Rejects
  cases hStage : inv.stage with
  | tokens =>
      rw [result_of_tokens hStage]
      cases lex src with
      | error failure => simp [eq_comm]
      | ok s => simp
  | ast =>
      rw [result_of_ast hStage]
      cases programOf src with
      | error e => simp
      | ok p => simp
  | asm =>
      rw [result_of_asm hStage]
      cases compile src inv.target with
      | error e => simp
      | ok code => simp

theorem result_eq_none_iff :
    inv.result src = .ok none ↔ inv.Overflows src := by
  unfold Overflows
  cases hStage : inv.stage with
  | tokens =>
      rw [result_of_tokens hStage]
      cases lex src with
      | error failure => simp
      | ok s => simp
  | ast =>
      rw [result_of_ast hStage]
      cases programOf src with
      | error e => simp
      | ok p => simp [Program.outlineText?_eq_none_iff]
  | asm =>
      rw [result_of_asm hStage]
      cases compile src inv.target with
      | error e => simp
      | ok code => simp

/- A stage fails where the compiler does. -/
theorem Rejects.compile_eq
    (hRejects : inv.Rejects src e)
    (target : Target) :
    compile src target = .error e := by
  unfold Rejects at hRejects
  cases hStage : inv.stage with
  | tokens =>
      rw [hStage] at hRejects
      rcases hRejects with ⟨failure, hLex, rfl⟩
      exact compile_of_lex_error hLex
  | ast =>
      rw [hStage] at hRejects
      exact compile_of_programOf_error hRejects target
  | asm =>
      rw [hStage] at hRejects
      exact compile_error_of_target hRejects target

end Invocation

------------------------------------------------------------
-- Outcomes
------------------------------------------------------------

/- A run that fails leaves nothing behind but a message. -/
structure Outcome.Refuses
    (out : Outcome)
    (disk : Disk) : Prop where
  status : out.status = 1
  stdout : out.stdout = ""
  disk : out.disk = disk

namespace Invocation

/-
  What a run leaves behind that has a source. It is told by
  what the wanted stage does with the source: whether it
  finds an error, whether an outline is too deep, or else
  the text, which goes to one place.
-/
structure Settles
    (inv : Invocation)
    (disk : Disk)
    (src : String)
    (out : Outcome) : Prop where
  cases :
    (∃ e, inv.Rejects src e) ∨
      (∃ text, inv.Yields src text) ∨ inv.Overflows src
  rejected :
    ∀ e,
      inv.Rejects src e →
      out.Refuses disk ∧
        (∀ target, compile src target = .error e) ∧
        e.report? src = some out.stderr
  printed :
    ∀ text,
      inv.Yields src text →
      inv.output? = none →
      out = ⟨0, text, "", disk⟩
  written :
    ∀ text path disk',
      inv.Yields src text →
      inv.output? = some path →
      disk.write path text = .ok disk' →
      out = ⟨0, "", "", disk'⟩ ∧
        disk'.read path = .ok text ∧
        ∃ place,
          disk'.Leads path place ∧
          disk.Stores disk' place text
  unwritten :
    ∀ text path e,
      inv.Yields src text →
      inv.output? = some path →
      disk.write path text = .error e →
      out.Refuses disk
  overflown :
    inv.Overflows src →
    out.status = 101 ∧ out.stdout = "" ∧ out.disk = disk

variable {inv : Invocation}
variable {disk : Disk}
variable {src : String}

/- A run that is not asked for records leaves none. -/
theorem log_eq_empty
    (hQuiet : inv.verbosity < 2)
    (input : Except Failure String) :
    inv.log input = "" := by
  have hHidden :
      ∀ level : Log.Level,
        ¬ level.threshold ≤ inv.verbosity := by
    intro level
    cases level with
    | debug =>
        exact Nat.not_le_of_lt hQuiet
    | trace =>
        exact Nat.not_le_of_lt (Nat.lt_succ_of_lt hQuiet)
  unfold log logText
  simp only [hHidden, decide_false, List.filter_false]
  rfl

/- The source is read, if it is not given. -/
theorem readInput_of_hasSource
    (hSource : inv.HasSource disk src) :
    inv.readInput disk = .ok src := by
  unfold HasSource at hSource
  unfold readInput
  cases hInput : inv.input with
  | source text =>
      rw [hInput] at hSource
      rw [hSource]
  | file path =>
      rw [hInput] at hSource
      simp only [hSource]

/- A run whose source cannot be read. -/
theorem run_refuses_of_unread
    {path : String}
    {e : FileError}
    (hInput : inv.input = .file path)
    (hRead : disk.read path = .error e) :
    (inv.run disk).Refuses disk := by
  have hFails :
      inv.readInput disk = .error (.unread path e) := by
    rw [readInput, hInput]
    simp only [hRead]
  unfold run
  rw [hFails]
  exact ⟨rfl, rfl, rfl⟩

/- A run that has no text to deliver. -/
theorem run_of_failure
    {failure : Failure}
    (hQuiet : inv.verbosity < 2)
    (hSource : inv.HasSource disk src)
    (hFails : inv.produce src = .error failure) :
    inv.run disk =
      ⟨failure.status, "", failure.message?.getD "",
        disk⟩ := by
  unfold run
  rw [readInput_of_hasSource hSource]
  simp only [bind, Except.bind, hFails, log_eq_empty hQuiet,
    String.empty_append]

/- A run that has a text to deliver. -/
theorem run_of_text
    {text : String}
    (hQuiet : inv.verbosity < 2)
    (hSource : inv.HasSource disk src)
    (hText : inv.produce src = .ok text) :
    inv.run disk =
      match inv.deliver disk text with
      | .ok (stdout, disk') => ⟨0, stdout, "", disk'⟩
      | .error failure =>
          ⟨failure.status, "", failure.message?.getD "",
            disk⟩ := by
  unfold run
  rw [readInput_of_hasSource hSource]
  cases hDelivered : inv.deliver disk text with
  | error failure =>
      simp only [bind, Except.bind, hText, hDelivered,
        log_eq_empty hQuiet, String.empty_append]
  | ok delivered =>
      simp only [bind, Except.bind, hText, hDelivered,
        log_eq_empty hQuiet]

theorem produce_of_yields
    {text : String}
    (hYields : inv.Yields src text) :
    inv.produce src = .ok text := by
  rw [produce, result_eq_some_iff.mpr hYields]

/- A run leaves behind what its stage tells. -/
theorem run_settles
    (hQuiet : inv.verbosity < 2)
    (hSource : inv.HasSource disk src) :
    inv.Settles disk src (inv.run disk) := by
  refine ⟨?_, ?_, ?_, ?_, ?_, ?_⟩
  · cases hResult : inv.result src with
    | error e =>
        exact .inl ⟨e, result_eq_error_iff.mp hResult⟩
    | ok text? =>
        cases text? with
        | none =>
            exact .inr
              (.inr (result_eq_none_iff.mp hResult))
        | some text =>
            exact .inr
              (.inl ⟨text, result_eq_some_iff.mp hResult⟩)
  · intro e hRejects
    have hFails :
        inv.produce src = .error (.rejected src e) := by
      rw [produce, result_eq_error_iff.mpr hRejects]
    rcases exists_report (hRejects.compile_eq .linux) with
      ⟨report, hReport⟩
    rw [run_of_failure hQuiet hSource hFails,
      Failure.message?_rejected hReport]
    exact ⟨⟨rfl, rfl, rfl⟩, hRejects.compile_eq, hReport⟩
  · intro text hYields hOutput
    rw [run_of_text hQuiet hSource
      (produce_of_yields hYields), deliver, hOutput]
  · intro text path disk' hYields hOutput hWrite
    rw [run_of_text hQuiet hSource
      (produce_of_yields hYields), deliver, hOutput]
    simp only [hWrite, true_and]
    exact ⟨Disk.read_of_write hWrite,
      Disk.stores_of_write hWrite⟩
  · intro text path e hYields hOutput hWrite
    rw [run_of_text hQuiet hSource
      (produce_of_yields hYields), deliver, hOutput]
    simp only [hWrite]
    exact ⟨rfl, rfl, rfl⟩
  · intro hOverflows
    have hFails : inv.produce src = .error .tooDeep := by
      rw [produce, result_eq_none_iff.mpr hOverflows]
    rw [run_of_failure hQuiet hSource hFails]
    exact ⟨rfl, rfl, rfl⟩

end Invocation

/-
  The command agrees with the compiler. A source that cannot
  be read leaves the disk alone. Otherwise the wanted stage
  tells what is left behind, and on sources that are not too
  long it makes no difference to the errors whether a
  program or its code is wanted.
-/
theorem command_agrees_with_compiler
    {inv : Invocation}
    (hQuiet : inv.verbosity < 2)
    (disk : Disk) :
    (∀ path e,
      inv.input = .file path →
      disk.read path = .error e →
      (inv.run disk).Refuses disk) ∧
    ∀ src,
      inv.HasSource disk src →
      inv.Settles disk src (inv.run disk) ∧
        (src.utf8ByteSize < 2 ^ 28 →
          ∀ target e,
            compile src target = .error e ↔
              programOf src = .error e) := by
  constructor
  · intro path e hInput hRead
    exact Invocation.run_refuses_of_unread hInput hRead
  · intro src hSource
    exact ⟨Invocation.run_settles hQuiet hSource,
      compile_eq_error_iff⟩

/- A disk on which a single file holds a source. -/
def Disk.withProgram
    (src : String) : Disk :=
  .ofWork (.folder [("prog.c", .file src.toUTF8)])

theorem Disk.read_withProgram
    (src : String) :
    (withProgram src).read "prog.c" = .ok src := by
  have hBytes :
      (withProgram src).bytes "prog.c" = .ok src.toUTF8 :=
    rfl
  rw [read, hBytes]
  exact textOfBytes_toUTF8 src

/-
  A file that ends too early is refused. A source that has
  code replaces the same file.
-/
theorem command_refuses_and_overwrites :
    let disk := Disk.withProgram "return 1\r"
    let shown : Invocation :=
      ⟨.file "prog.c", some "out.s", none, .ast, 1⟩
    let built : Invocation :=
      ⟨.source "return 7;", some "prog.c", none, .asm, 0⟩
    (shown.verbosity < 2 ∧
      (shown.run disk).Refuses disk ∧
      (shown.run disk).stderr =
        "1:10: error: expected \";\", but got " ++
          "end of input\nreturn 1\n         ^\n") ∧
    built.verbosity < 2 ∧
      ∃ text,
        compile "return 7;" .linux = .ok text ∧
        (built.run disk).status = 0 ∧
        (built.run disk).disk.read "prog.c" = .ok text := by
  intro disk shown built
  have hShown : shown.verbosity < 2 := by decide
  have hBuilt : built.verbosity < 2 := by decide
  refine ⟨⟨hShown, ?_⟩, hBuilt, ?_⟩
  · let e : CompileError :=
      .parse ⟨.mismatch .eof .semicolon, ⟨9, 0⟩⟩
    have hSource : shown.HasSource disk "return 1\r" :=
      Disk.read_withProgram "return 1\r"
    have hRejects : shown.Rejects "return 1\r" e := by
      show programOf "return 1\r" = .error e
      decide +kernel
    have hReport :
        e.report? "return 1\r" =
          some
            ("1:10: error: expected \";\", but got " ++
              "end of input\nreturn 1\n         ^\n") := by
      decide +kernel
    rcases command_agrees_with_compiler hShown disk with
      ⟨-, hSettles⟩
    rcases (hSettles _ hSource).1.rejected e hRejects with
      ⟨hRefuses, -, hStderr⟩
    rw [hReport] at hStderr
    exact ⟨hRefuses, (Option.some.inj hStderr).symm⟩
  · have hCode :
        (compile "return 7;" .linux).toBool = true := by
      decide +kernel
    cases hText : compile "return 7;" .linux with
    | error e =>
        rw [hText] at hCode
        cases hCode
    | ok text =>
        have hWrite :
            disk.write "prog.c" text =
              .ok (.withProgram text) := by
          rfl
        rcases command_agrees_with_compiler hBuilt disk with
          ⟨-, hSettles⟩
        rcases (hSettles "return 7;" rfl).1.written text
            "prog.c" _ hText rfl hWrite with
          ⟨hRun, hRead, -⟩
        rw [hRun]
        exact ⟨text, rfl, rfl, hRead⟩

/-
  Blocks that are nested too deeply have code, and no
  outline. The command ends in an unusual way.
-/
theorem deep_blocks_end_the_command :
    let src := nestedSource 32769
    let disk := Disk.withProgram src
    let inv : Invocation :=
      ⟨.file "prog.c", none, none, .ast, 0⟩
    src.utf8ByteSize < 2 ^ 28 ∧
      inv.HasSource disk src ∧
      (∃ text, compile src .linux = .ok text) ∧
      (inv.run disk).status = 101 := by
  intro src disk inv
  have hBytes : src.utf8ByteSize < 2 ^ 28 := by
    rw [utf8ByteSize_nestedSource]
    decide
  have hSource : inv.HasSource disk src :=
    Disk.read_withProgram src
  rcases exists_parse_nestedSource (n := 32769)
      (by decide) with
    ⟨s, p, hLex, hParse, hOutline⟩
  have hProgram : programOf src = .ok p :=
    programOf_eq_ok_iff.mpr ⟨s, hLex, hParse⟩
  have hNone : p.outlineText? = none :=
    hOutline.mpr (by decide)
  refine ⟨hBytes, hSource, ?_, ?_⟩
  · cases hCode : compile src .linux with
    | ok text =>
        exact ⟨text, rfl⟩
    | error e =>
        rw [compile_eq_error_iff hBytes, hProgram] at hCode
        cases hCode
  · have hResult : inv.result src = .ok none := by
      rw [Invocation.result_of_ast rfl, hProgram, ← hNone]
    have hSettles : inv.Settles disk src (inv.run disk) :=
      Invocation.run_settles (by decide) hSource
    exact (hSettles.overflown
      (Invocation.result_eq_none_iff.mp hResult)).1

end WordLang
