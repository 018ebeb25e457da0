import WordLang.Assembly.Text
import WordLang.Proofs.Numeral

/-
  This file reads assembly text.

  A text is read line by line. The code of a routine is what
  follows the definition of its symbol; empty lines in it
  mean nothing. A line that ends in a colon defines a label,
  and any other line is an instruction: its name and its
  operands, which blanks and commas separate. A line whose
  numbers have no encoding is not read.

  Reading undoes writing where every line has an encoding,
  so a text that was written for a routine has the meaning
  of its code.

  Key definitions include:
    * `WordLang.Assembly.words`
    * `WordLang.Operand.read?`
    * `WordLang.Label.read?`
    * `WordLang.Instr.read?`
    * `WordLang.Line.read?`
    * `WordLang.Assembly.read?`
    * `WordLang.Line.isEncodable`
    * `WordLang.Assembly.linesOf`
    * `WordLang.Assembly.splitJump?`

  Key theorems include:
    * `WordLang.Line.read?_instr`
    * `WordLang.Line.read?_text`
    * `WordLang.Assembly.read?_text`
    * `WordLang.Line.splitJump?_text`
-/

namespace WordLang

------------------------------------------------------------
-- Operands
------------------------------------------------------------

/- The register with a given name. -/
def Reg.read? : String → Option Reg
| "rax" => some .rax
| "rdi" => some .rdi
| "rsp" => some .rsp
| "rbp" => some .rbp
| _ => none

/- The comparison that an instruction tests. -/
def Cond.read? : String → Option Cond
| "sete" => some .equal
| "setne" => some .notEqual
| "setl" => some .less
| "setle" => some .lessEqual
| _ => none

/- What the word in a label says that it marks. -/
def Label.Role.read? : List Char → Option Label.Role
| ['b', 'e', 'g', 'i', 'n'] => some .begin
| ['e', 'l', 's', 'e'] => some .orElse
| ['e', 'n', 'd'] => some .finish
| ['r', 'e', 't', 'u', 'r', 'n'] => some .exit
| _ => none

/- What follows the start of a local label. -/
def Target.afterStem? :
    Target →
    List Char →
    Option (List Char)
| .linux, '.' :: 'L' :: '.' :: rest => some rest
| .darwin, 'L' :: '.' :: rest => some rest
| _, _ => none

/- A local label, with its role and its number. -/
def Label.read?
    (target : Target)
    (cs : List Char) : Option Label := do
  match (← target.afterStem? cs).splitOn '.' with
  | [role, number] =>
      let role ← Role.read? role
      let n ← Literal.decimal? number
      if n < 2 ^ 32 then
        some ⟨role, UInt32.ofNat n⟩
      else
        none
  | _ => none

/- What an instruction works on. -/
inductive Operand where
  | reg (r : Reg)
  | low
  | memory (base : Reg)
  | immediate (value : Int64)
deriving DecidableEq, Repr

/-
  An operand: the name of a register, the name of the low
  byte of `rax`, a register in brackets, or a number.
-/
def Operand.read?
    (s : String) : Option Operand :=
  match Reg.read? s with
  | some r => some (.reg r)
  | none =>
      match s.toList with
      | ['a', 'l'] => some .low
      | '[' :: cs =>
          if cs.getLast? = some ']' then
            (Reg.read? (String.ofList cs.dropLast)).map
              .memory
          else
            none
      | _ => (Literal.read? s).map .immediate

------------------------------------------------------------
-- Instructions
------------------------------------------------------------

/-
  An instruction on two operands. The number that `sub`
  takes away is encoded in 32 bits with a sign.
-/
def Instr.ofOperands? :
    String →
    Operand →
    Operand →
    Option Instr
| "mov", .reg dst, .reg src => some (.mov dst src)
| "mov", .reg dst, .immediate v => some (.movImm dst v)
| "mov", .reg dst, .memory base => some (.load dst base)
| "mov", .memory base, .reg src => some (.store base src)
| "add", .reg dst, .reg src => some (.add dst src)
| "sub", .reg dst, .reg src => some (.sub dst src)
| "sub", .reg dst, .immediate v =>
    if 0 ≤ v.toInt ∧ v.toInt.toNat < 2 ^ 31 then
      some (.subImm dst (UInt32.ofNat v.toInt.toNat))
    else
      none
| "imul", .reg dst, .reg src => some (.imul dst src)
| "cmp", .reg lhs, .reg rhs => some (.cmp lhs rhs)
| "cmp", .reg lhs, .immediate v =>
    if v = 0 then some (.cmpZero lhs) else none
| "movzx", .reg .rax, .low => some .movzx
| _, _, _ => none

/- An instruction on one operand. -/
def Instr.ofWord?
    (target : Target) :
    String →
    String →
    Option Instr
| "push", src => (Reg.read? src).map .push
| "pop", dst => (Reg.read? dst).map .pop
| "idiv", src => (Reg.read? src).map .idiv
| "jmp", l => (Label.read? target l.toList).map .jmp
| "je", l => (Label.read? target l.toList).map .je
| name, dst =>
    if dst = "al" then
      (Cond.read? name).map .setcc
    else
      none

/-
  An address below the frame base. Its distance from there
  is encoded, negated, in 32 bits with a sign.
-/
def Instr.ofAddress?
    (dst bytes : String) : Option Instr := do
  let dst ← Reg.read? dst
  if bytes.toList.getLast? = some ']' then
    let n ← Literal.decimal? bytes.toList.dropLast
    if n ≤ 2 ^ 31 then
      some (.lea dst ⟨UInt32.ofNat n⟩)
    else
      none
  else
    none

/- The instruction that the words of a line write. -/
def Instr.read?
    (target : Target) :
    List String →
    Option Instr
| [name] =>
    if name = "cqo" then
      some .cqo
    else if name = "ret" then
      some .ret
    else
      none
| [name, operand] => ofWord? target name operand
| [name, first, second] =>
    (Operand.read? first).bind fun a =>
      (Operand.read? second).bind (ofOperands? name a)
| [name, dst, base, minus, bytes] =>
    if (name, base, minus) = ("lea", "[rbp", "-") then
      ofAddress? dst bytes
    else
      none
| _ => none

------------------------------------------------------------
-- Texts
------------------------------------------------------------

namespace Assembly

/- The characters that separate words. -/
def isSeparator
    (c : Char) : Bool :=
  c = ' ' || c = ','

/- The words of a line. -/
def words
    (cs : List Char) : List String :=
  ((cs.splitOnP isSeparator).filter
    (fun w => !w.isEmpty)).map String.ofList

end Assembly

/- The line of code that a line of text writes. -/
def Line.read?
    (target : Target)
    (cs : List Char) : Option Line :=
  if cs.getLast? = some ':' then
    (Label.read? target cs.dropLast).map .label
  else
    (Instr.read? target (Assembly.words cs)).map .instr

/- The code of a routine that a text has. -/
def Assembly.read?
    (target : Target)
    (name : String)
    (text : String) : Option (List Line) :=
  match
    (text.toList.splitOn '\n').dropWhile
      (· ≠ (symbol target name ++ ":").toList) with
  | [] => none
  | _ :: rest =>
      (rest.filter (fun cs => !cs.isEmpty)).mapM
        (Line.read? target)

------------------------------------------------------------
-- Encodings
------------------------------------------------------------

/- The number in an instruction has an encoding. -/
def Instr.isEncodable : Instr → Bool
| subImm _ bytes => decide (bytes.toNat < 2 ^ 31)
| lea _ offset => decide (offset.bytes.toNat ≤ 2 ^ 31)
| _ => true

/- A line has an encoding; labels take no room. -/
def Line.isEncodable : Line → Bool
| instr i => i.isEncodable
| label _ => true

------------------------------------------------------------
-- Words
------------------------------------------------------------

namespace Assembly

/-
  The characters that neither end a word nor mean something
  at the end of one.
-/
def isPlain
    (c : Char) : Bool :=
  !isSeparator c && c ≠ ':' && c ≠ '\n'

/- The texts that are one word of a line. -/
def IsWord
    (s : String) : Prop :=
  s.toList ≠ [] ∧ ∀ c ∈ s.toList, isPlain c = true

instance (s : String) : Decidable (IsWord s) :=
  decidable_of_iff
    ((!s.toList.isEmpty && s.toList.all isPlain) = true)
    (by simp [IsWord])

theorem isPlain_of_isDigit
    {c : Char}
    (hDigit : c.isDigit = true) :
    isPlain c = true := by
  have hOther (d : Char) (hNot : d.isDigit = false) :
      c ≠ d := by
    rintro rfl
    rw [hDigit] at hNot
    contradiction
  simp [isPlain, isSeparator, hOther ' ' rfl,
    hOther ',' rfl, hOther ':' rfl, hOther '\n' rfl]

/- A separator ends a word. -/
theorem words_append_cons
    (xs ys : List Char)
    {c : Char}
    (hSeparator : isSeparator c = true) :
    words (xs ++ c :: ys) = words xs ++ words ys := by
  unfold words
  rw [List.splitOnP_append_cons xs ys hSeparator,
    List.filter_append, List.map_append]

/- A word is the only one of its line. -/
theorem words_of_isWord
    {s : String}
    (hWord : IsWord s) :
    words s.toList = [s] := by
  obtain ⟨hNonempty, hPlain⟩ := hWord
  have hChars :
      ∀ c ∈ s.toList, isSeparator c = false := by
    intro c hChar
    have hPlainChar := hPlain c hChar
    simp only [isPlain, Bool.and_eq_true,
      Bool.not_eq_true'] at hPlainChar
    exact hPlainChar.1.1
  have hKept :
      [s.toList].filter (fun w => !w.isEmpty) =
        [s.toList] := by
    simpa using hNonempty
  unfold words
  rw [List.splitOnP_eq_singleton hChars, hKept,
    List.map_singleton, String.ofList_toList]

/- A line with a word at its end is no label. -/
theorem getLast?_ne_colon
    (cs : List Char)
    {s : String}
    (hWord : IsWord s) :
    (cs ++ s.toList).getLast? ≠ some ':' := by
  intro hColon
  rw [List.getLast?_append,
    Option.or_of_isSome
      (List.getLast?_isSome.mpr hWord.1)] at hColon
  have hPlain := hWord.2 ':' (List.mem_of_getLast? hColon)
  contradiction

end Assembly

namespace Line

open Assembly

/- A line with one operand. -/
theorem read?_one
    (target : Target)
    (name : String)
    {start operand : String}
    (hStart : start = name ++ " ")
    (hName : IsWord name)
    (hOperand : IsWord operand) :
    Line.read? target
        ("    " ++ (start ++ operand)).toList =
      (Instr.read? target [name, operand]).map .instr := by
  subst hStart
  have hChars :
      ("    " ++ (name ++ " " ++ operand)).toList =
        "   ".toList ++
          ' ' :: (name.toList ++
            ' ' :: operand.toList) := by
    simp
  have hLast :=
    getLast?_ne_colon
      ("    " ++ (name ++ " ")).toList hOperand
  rw [← String.toList_append, String.append_assoc]
    at hLast
  unfold Line.read?
  rw [if_neg hLast, hChars, words_append_cons _ _ rfl,
    words_append_cons _ _ rfl, words_of_isWord hName,
    words_of_isWord hOperand]
  rfl

/- A line with two operands. -/
theorem read?_two
    (target : Target)
    (name : String)
    {start first second : String}
    (hStart : start = name ++ " ")
    (hName : IsWord name)
    (hFirst : IsWord first)
    (hSecond : IsWord second) :
    Line.read? target
        ("    " ++
          (start ++ first ++ ", " ++ second)).toList =
      (Instr.read? target [name, first, second]).map
        .instr := by
  subst hStart
  have hChars :
      ("    " ++
        (name ++ " " ++ first ++ ", " ++
          second)).toList =
        "   ".toList ++
          ' ' :: (name.toList ++
            ' ' :: (first.toList ++
              ',' :: ([] ++ ' ' :: second.toList))) := by
    simp
  have hLast :=
    getLast?_ne_colon
      ("    " ++ (name ++ " " ++ first ++ ", ")).toList
      hSecond
  rw [← String.toList_append, String.append_assoc]
    at hLast
  unfold Line.read?
  rw [if_neg hLast, hChars, words_append_cons _ _ rfl,
    words_append_cons _ _ rfl, words_append_cons _ _ rfl,
    words_append_cons _ _ rfl, words_of_isWord hName,
    words_of_isWord hFirst, words_of_isWord hSecond]
  rfl

end Line

------------------------------------------------------------
-- Reading What Was Written
------------------------------------------------------------

/- A written register is read back. -/
theorem Reg.read?_text
    (r : Reg) :
    Reg.read? r.text = some r := by
  cases r <;> rfl

/- Only the names of registers are read as registers. -/
theorem Reg.text_of_read?
    {s : String}
    {r : Reg}
    (hRead : Reg.read? s = some r) :
    s = r.text := by
  unfold Reg.read? at hRead
  split at hRead <;> cases hRead <;> rfl

namespace Operand

/- A written register is read as one. -/
theorem read?_reg
    (r : Reg) :
    read? r.text = some (.reg r) := by
  unfold read?
  rw [Reg.read?_text]

/- A register in brackets is read as an address. -/
theorem read?_memory
    (base : Reg) :
    read? ("[" ++ base.text ++ "]") =
      some (.memory base) := by
  cases base <;> rfl

/- A written number is read as one. -/
theorem read?_number
    {s : String}
    {v : Int64}
    (hRead : Literal.read? s = some v)
    (hChars :
      ∀ c ∈ s.toList, c.isDigit = true ∨ c = '-') :
    read? s = some (.immediate v) := by
  have hLetter :
      ∀ c ∈ s.toList, c ≠ 'r' ∧ c ≠ 'a' ∧ c ≠ '[' := by
    intro c hChar
    rcases hChars c hChar with hDigit | rfl
    · refine ⟨?_, ?_, ?_⟩ <;> rintro rfl <;> contradiction
    · decide
  have hReg : Reg.read? s = none := by
    cases hName : Reg.read? s with
    | none =>
        rfl
    | some r =>
        have hText := Reg.text_of_read? hName
        have hFirst : 'r' ∈ s.toList := by
          rw [hText]
          cases r <;> decide
        exact absurd rfl (hLetter 'r' hFirst).1
  unfold read?
  rw [hReg]
  dsimp only
  split
  · rename_i hList
    have hFirst : 'a' ∈ s.toList := by
      rw [hList]
      exact List.mem_cons_self
    exact absurd rfl (hLetter 'a' hFirst).2.1
  · rename_i cs hList
    have hFirst : '[' ∈ s.toList := by
      rw [hList]
      exact List.mem_cons_self
    exact absurd rfl (hLetter '[' hFirst).2.2
  · rw [hRead]
    rfl

end Operand

------------------------------------------------------------
-- Labels
------------------------------------------------------------

namespace Label

/- The characters of a written label. -/
theorem toList_text
    (target : Target)
    (l : Label) :
    (l.text target).toList =
      target.labelStem.toList ++
        (l.role.text.toList ++
          '.' :: (toString l.id.toNat).toList) := by
  unfold text
  rw [String.toList_append, String.toList_append,
    String.toList_append, List.append_assoc,
    List.append_assoc]
  rfl

/- A written label is a word. -/
theorem isWord_text
    (target : Target)
    (l : Label) :
    Assembly.IsWord (l.text target) := by
  have hStem :
      Assembly.IsWord target.labelStem := by
    cases target <;> decide
  have hRole :
      Assembly.IsWord l.role.text := by
    cases l.role <;> decide
  constructor
  · rw [toList_text]
    exact List.append_ne_nil_of_left_ne_nil hStem.1 _
  · intro c hChar
    rw [toList_text, List.mem_append, List.mem_append,
      List.mem_cons] at hChar
    rcases hChar with hChar | hChar | rfl | hChar
    · exact hStem.2 c hChar
    · exact hRole.2 c hChar
    · rfl
    · exact Assembly.isPlain_of_isDigit
        (Literal.isDigit_of_mem_toString hChar)

/- A written label is read back. -/
theorem read?_text
    (target : Target)
    (l : Label) :
    Label.read? target (l.text target).toList = some l := by
  have hStem (cs : List Char) :
      target.afterStem? (target.labelStem.toList ++ cs) =
        some cs := by
    cases target <;> rfl
  have hWord : '.' ∉ l.role.text.toList := by
    cases l.role <;> decide
  have hNumber : '.' ∉ (toString l.id.toNat).toList := by
    intro hDot
    have hDigit := Literal.isDigit_of_mem_toString hDot
    contradiction
  have hSplit :
      (l.role.text.toList ++
        '.' :: (toString l.id.toNat).toList).splitOn '.' =
      [l.role.text.toList,
        (toString l.id.toNat).toList] := by
    unfold List.splitOn
    rw [List.splitOnP_append_cons _ _ (by simp),
      List.splitOnP_eq_singleton fun c hChar => by
        simpa using ne_of_mem_of_not_mem hChar hWord,
      List.splitOnP_eq_singleton fun c hChar => by
        simpa using ne_of_mem_of_not_mem hChar hNumber]
    rfl
  have hRole :
      Role.read? l.role.text.toList = some l.role := by
    cases l.role <;> rfl
  unfold Label.read?
  simp only [toList_text, hStem, Option.bind_eq_bind,
    Option.bind_some, hSplit, hRole,
    Literal.decimal?_toString,
    if_pos (UInt32.toNat_lt l.id), UInt32.ofNat_toNat]

end Label

------------------------------------------------------------
-- Lines
------------------------------------------------------------

/- A written register is a word. -/
theorem Reg.isWord_text
    (r : Reg) :
    Assembly.IsWord r.text := by
  cases r <;> decide

/- A register in brackets is a word. -/
theorem Reg.isWord_brackets
    (r : Reg) :
    Assembly.IsWord ("[" ++ r.text ++ "]") := by
  cases r <;> decide

/- A number is a word. -/
theorem Literal.isWord_toString
    (v : Int) :
    Assembly.IsWord (toString v) := by
  refine ⟨toString_toInt_ne_nil v, ?_⟩
  intro c hChar
  rcases isDigit_or_eq_of_mem_toString hChar
    with hDigit | rfl
  · exact Assembly.isPlain_of_isDigit hDigit
  · rfl

namespace Line

/- A written instruction on two registers is read back. -/
theorem read?_registers
    (target : Target)
    (name : String)
    {start : String}
    (hStart : start = name ++ " ")
    (hName : Assembly.IsWord name)
    (dst src : Reg) :
    Line.read? target
        ("    " ++
          (start ++ dst.text ++ ", " ++
            src.text)).toList =
      (Instr.ofOperands? name (.reg dst) (.reg src)).map
        .instr := by
  rw [read?_two target name hStart hName dst.isWord_text
      src.isWord_text, Instr.read?, Operand.read?_reg,
    Operand.read?_reg, Option.bind_some, Option.bind_some]

/- A written instruction on a number is read back. -/
theorem read?_immediate
    (target : Target)
    (name : String)
    {start : String}
    (hStart : start = name ++ " ")
    (hName : Assembly.IsWord name)
    (dst : Reg)
    (v : Int64) :
    Line.read? target
        ("    " ++
          (start ++ dst.text ++ ", " ++
            toString v.toInt)).toList =
      (Instr.ofOperands? name (.reg dst)
        (.immediate v)).map .instr := by
  have hNumber :
      Operand.read? (toString v.toInt) =
        some (.immediate v) :=
    Operand.read?_number (Literal.read?_toString_toInt v)
      fun _ => Literal.isDigit_or_eq_of_mem_toString
  rw [read?_two target name hStart hName dst.isWord_text
      (Literal.isWord_toString v.toInt), Instr.read?,
    Operand.read?_reg, hNumber, Option.bind_some,
    Option.bind_some]

/-
  A written address below the frame base is read back if it
  has an encoding.
-/
theorem read?_address
    (target : Target)
    (dst : Reg)
    (offset : Offset) :
    Line.read? target
        ("    " ++
          ("lea " ++ dst.text ++ ", [rbp - " ++
            offset.text ++ "]")).toList =
      if offset.bytes.toNat ≤ 2 ^ 31 then
        some (.instr (.lea dst offset))
      else
        none := by
  have hWord : Assembly.IsWord (offset.text ++ "]") := by
    constructor
    · simp
    · intro c hChar
      rw [String.toList_append, List.mem_append] at hChar
      rcases hChar with hChar | hChar
      · exact Assembly.isPlain_of_isDigit
          (Literal.isDigit_of_mem_toString hChar)
      · rw [List.mem_singleton.mp hChar]
        rfl
  have hChars :
      ("    " ++
        ("lea " ++ dst.text ++ ", [rbp - " ++
          offset.text ++ "]")).toList =
        "    lea".toList ++
          ' ' :: (dst.text.toList ++
            ',' :: (" [rbp -".toList ++
              ' ' :: (offset.text ++ "]").toList)) := by
    simp
  have hLast :
      ("    " ++
        ("lea " ++ dst.text ++ ", [rbp - " ++
          offset.text ++ "]")).toList.getLast? ≠
        some ':' := by
    have hEnd :=
      Assembly.getLast?_ne_colon
        ("    " ++
          ("lea " ++ dst.text ++ ", [rbp - ")).toList hWord
    simpa only [← String.toList_append,
      String.append_assoc] using hEnd
  have hName : Assembly.words "    lea".toList = ["lea"] :=
    rfl
  have hBase :
      Assembly.words " [rbp -".toList = ["[rbp", "-"] :=
    rfl
  have hBytes :
      (offset.text ++ "]").toList.getLast? = some ']' := by
    simp
  have hDigits :
      (offset.text ++ "]").toList.dropLast =
        (toString offset.bytes.toNat).toList := by
    rw [String.toList_append]
    exact List.dropLast_concat
  unfold Line.read?
  rw [if_neg hLast, hChars,
    Assembly.words_append_cons _ _ rfl,
    Assembly.words_append_cons _ _ rfl,
    Assembly.words_append_cons _ _ rfl, hName, hBase,
    Assembly.words_of_isWord dst.isWord_text,
    Assembly.words_of_isWord hWord]
  show (Instr.ofAddress? dst.text (offset.text ++ "]")).map
    Line.instr = _
  unfold Instr.ofAddress?
  simp only [Reg.read?_text, hBytes, hDigits,
    Literal.decimal?_toString, UInt32.ofNat_toNat,
    Option.bind_eq_bind, Option.bind_some, if_true]
  split <;> rfl

/- A written instruction is read back if it has an encoding. -/
theorem read?_instr
    (target : Target)
    (i : Instr) :
    Line.read? target (Line.text target (.instr i)).toList =
      if i.isEncodable then some (.instr i) else none := by
  cases i with
  | push src =>
      refine (read?_one target "push" (by rfl) (by decide)
        src.isWord_text).trans ?_
      rw [Instr.read?, Instr.ofWord?, Reg.read?_text]
      rfl
  | pop dst =>
      refine (read?_one target "pop" (by rfl) (by decide)
        dst.isWord_text).trans ?_
      rw [Instr.read?, Instr.ofWord?, Reg.read?_text]
      rfl
  | idiv src =>
      refine (read?_one target "idiv" (by rfl) (by decide)
        src.isWord_text).trans ?_
      rw [Instr.read?, Instr.ofWord?, Reg.read?_text]
      rfl
  | jmp l =>
      refine (read?_one target "jmp" (by rfl) (by decide)
        (l.isWord_text target)).trans ?_
      rw [Instr.read?, Instr.ofWord?, Label.read?_text]
      rfl
  | je l =>
      refine (read?_one target "je" (by rfl) (by decide)
        (l.isWord_text target)).trans ?_
      rw [Instr.read?, Instr.ofWord?, Label.read?_text]
      rfl
  | mov dst src =>
      exact read?_registers target "mov" (by rfl)
        (by decide) dst src
  | add dst src =>
      exact read?_registers target "add" (by rfl)
        (by decide) dst src
  | sub dst src =>
      exact read?_registers target "sub" (by rfl)
        (by decide) dst src
  | imul dst src =>
      exact read?_registers target "imul" (by rfl)
        (by decide) dst src
  | cmp lhs rhs =>
      exact read?_registers target "cmp" (by rfl)
        (by decide) lhs rhs
  | movImm dst value =>
      exact read?_immediate target "mov" (by rfl)
        (by decide) dst value
  | cmpZero lhs =>
      have hText :
          "cmp " ++ lhs.text ++ ", 0" =
            "cmp " ++ lhs.text ++ ", " ++
              toString (0 : Int64).toInt := by
        cases lhs <;> rfl
      unfold Line.text Instr.text
      dsimp only
      rw [hText]
      exact read?_immediate target "cmp" (by rfl)
        (by decide) lhs 0
  | subImm dst bytes =>
      have hRange := UInt32.toNat_lt bytes
      have hInt :
          (Int64.ofNat bytes.toNat).toInt =
            (bytes.toNat : Int) :=
        Int64.toInt_ofNat_of_lt (by omega)
      have hRead :=
        read?_immediate target "sub" rfl (by decide) dst
          (Int64.ofNat bytes.toNat)
      rw [Instr.ofOperands?, hInt, Int.toNat_natCast,
        UInt32.ofNat_toNat] at hRead
      refine hRead.trans ?_
      simp only [Int.natCast_nonneg, true_and,
        Instr.isEncodable, decide_eq_true_eq]
      split <;> rfl
  | load dst base =>
      have hText :
          "mov " ++ dst.text ++ ", [" ++ base.text ++ "]" =
            "mov " ++ dst.text ++ ", " ++
              ("[" ++ base.text ++ "]") := by
        cases dst <;> cases base <;> rfl
      unfold Line.text Instr.text
      dsimp only
      rw [hText]
      refine (read?_two target "mov" (by rfl) (by decide)
        dst.isWord_text base.isWord_brackets).trans ?_
      rw [Instr.read?, Operand.read?_reg,
        Operand.read?_memory]
      rfl
  | store base src =>
      have hText :
          "mov [" ++ base.text ++ "], " ++ src.text =
            "mov " ++ ("[" ++ base.text ++ "]") ++ ", " ++
              src.text := by
        cases base <;> cases src <;> rfl
      unfold Line.text Instr.text
      dsimp only
      rw [hText]
      refine (read?_two target "mov" (by rfl) (by decide)
        base.isWord_brackets src.isWord_text).trans ?_
      rw [Instr.read?, Operand.read?_reg,
        Operand.read?_memory]
      rfl
  | lea dst offset =>
      simp only [Instr.isEncodable, decide_eq_true_eq]
      exact read?_address target dst offset
  | setcc cond =>
      cases target <;> cases cond <;> rfl
  | cqo | movzx | ret =>
      cases target <;> rfl

/- A written line is read back if it has an encoding. -/
theorem read?_text
    (target : Target)
    (l : Line) :
    Line.read? target (l.text target).toList =
      if l.isEncodable then some l else none := by
  cases l with
  | instr i =>
      exact read?_instr target i
  | label l =>
      have hChars :
          (Line.text target (.label l)).toList =
            (l.text target).toList ++ [':'] := by
        simp [Line.text]
      unfold Line.read?
      rw [hChars, if_pos List.getLast?_concat,
        List.dropLast_concat, Label.read?_text]
      rfl

/- A written line is not empty. -/
theorem text_ne_empty
    (target : Target)
    (l : Line) :
    l.text target ≠ "" := by
  cases l <;> simp [Line.text]

/-
  A written instruction has no colon and no line end in it.
-/
theorem not_mem_text_instr
    (target : Target)
    (i : Instr)
    {c : Char}
    (hMark : c = ':' ∨ c = '\n') :
    c ∉ (Line.text target (.instr i)).toList := by
  have hWord {s : String} (hWord : Assembly.IsWord s) :
      c ∉ s.toList := by
    intro hMem
    have hPlain := hWord.2 c hMem
    rcases hMark with rfl | rfl <;> contradiction
  have hReg (r : Reg) := hWord r.isWord_text
  have hLabel (l : Label) := hWord (l.isWord_text target)
  have hInt (v : Int) : c ∉ v.repr.toList :=
    hWord (Literal.isWord_toString v)
  have hNat (n : Nat) : c ∉ Nat.toDigits 10 n := by
    rw [← Literal.toList_toString]
    exact hWord (Literal.isWord_toString n)
  have hCond (cond : Cond) : c ∉ cond.text.toList := by
    rcases hMark with rfl | rfl <;> cases cond <;> decide
  rcases hMark with rfl | rfl <;> cases i <;>
    simp [Line.text, Instr.text, Offset.text, hReg,
      hLabel, hInt, hNat, hCond]

/- A written line has no line end in it. -/
theorem newline_not_mem_text
    (target : Target)
    (l : Line) :
    '\n' ∉ (l.text target).toList := by
  cases l with
  | label l =>
      have hLabel : '\n' ∉ (l.text target).toList := by
        intro hBreak
        have hPlain := (l.isWord_text target).2 '\n' hBreak
        contradiction
      simp [Line.text, hLabel]
  | instr i =>
      exact not_mem_text_instr target i (.inr rfl)

/-
  Written lines are read back if all of them have an
  encoding.
-/
theorem mapM_read?_text
    (target : Target)
    (ls : List Line) :
    (ls.map fun l => (l.text target).toList).mapM
        (Line.read? target) =
      if ls.all isEncodable then some ls else none := by
  induction ls with
  | nil =>
      rfl
  | cons l ls ih =>
      rw [List.map_cons, List.mapM_cons, read?_text, ih,
        List.all_cons]
      cases l.isEncodable <;> cases ls.all isEncodable <;> rfl

end Line

------------------------------------------------------------
-- Routines
------------------------------------------------------------

namespace Assembly

/- Lines that were joined are separated again. -/
theorem splitOn_unlines
    (ls : List String)
    (hLines : ∀ l ∈ ls, '\n' ∉ l.toList) :
    (unlines ls).toList.splitOn '\n' =
      ls.map String.toList ++ [[]] := by
  induction ls with
  | nil =>
      rfl
  | cons l ls ih =>
      have hJoin :
          (unlines (l :: ls)).toList =
            l.toList ++ '\n' :: (unlines ls).toList := by
        simp [unlines, String.join_cons]
      have hFirst :
          ∀ c ∈ l.toList, (c == '\n') = false := by
        intro c hChar
        have hNot := hLines l List.mem_cons_self
        simpa using ne_of_mem_of_not_mem hChar hNot
      unfold List.splitOn at ih ⊢
      rw [hJoin, List.splitOnP_append_cons _ _ (by rfl),
        List.splitOnP_eq_singleton hFirst,
        ih fun l hMember =>
          hLines l (List.mem_cons_of_mem _ hMember)]
      rfl

/- The head of a text has no line end in its lines. -/
theorem newline_not_mem_header
    (target : Target) :
    ∀ l ∈ header target Program.mainName,
      '\n' ∉ l.toList := by
  cases target <;> decide

/- The code of a routine follows the line of its symbol. -/
theorem dropWhile_header
    (target : Target)
    (rest : List (List Char)) :
    ((header target Program.mainName).map String.toList ++
      rest).dropWhile
        (· ≠
          (symbol target Program.mainName ++ ":").toList) =
      (symbol target Program.mainName ++ ":").toList ::
        rest := by
  cases target <;> rfl

/- The lines of a routine as they are written. -/
def written
    (target : Target)
    (ls : List Line) : List (List Char) :=
  ls.map fun l => (l.text target).toList

/- The lines of the text of the main routine. -/
theorem splitOn_text
    (target : Target)
    (ls : List Line) :
    (text target Program.mainName ls).toList.splitOn '\n' =
      (header target Program.mainName).map String.toList ++
        (written target ls ++ [[], []]) := by
  have hLines :
      ∀ l ∈ header target Program.mainName ++
          ls.map (Line.text target) ++ [""],
        '\n' ∉ l.toList := by
    intro l hMember
    rw [List.mem_append, List.mem_append] at hMember
    rcases hMember with (hHeader | hCode) | hEmpty
    · exact newline_not_mem_header target l hHeader
    · obtain ⟨line, -, rfl⟩ := List.mem_map.mp hCode
      exact Line.newline_not_mem_text target line
    · rw [List.mem_singleton.mp hEmpty]
      decide
  rw [text, splitOn_unlines _ hLines]
  simp [written]

/-
  The text of the main routine is read back if all of its
  lines have an encoding.
-/
theorem read?_text
    (target : Target)
    (ls : List Line) :
    read? target Program.mainName
        (text target Program.mainName ls) =
      if ls.all Line.isEncodable then some ls else none := by
  have hFilter :
      (written target ls ++ [[], []]).filter
          (fun cs => !cs.isEmpty) =
        written target ls := by
    simp [written, Line.text_ne_empty]
  unfold read?
  rw [splitOn_text, dropWhile_header]
  dsimp only
  rw [hFilter]
  exact Line.mapM_read?_text target ls

end Assembly

------------------------------------------------------------
-- Jumps in a Text
------------------------------------------------------------

namespace Assembly

/- The lines of a text. -/
def linesOf
    (text : String) : List (List Char) :=
  text.toList.splitOn '\n'

/- A jump, divided before the label that it goes to. -/
def splitJump? :
    List Char →
    Option (List Char × List Char)
| ' ' :: ' ' :: ' ' :: ' ' :: 'j' :: 'm' :: 'p' :: ' ' ::
    label =>
    some ("    jmp ".toList, label)
| ' ' :: ' ' :: ' ' :: ' ' :: 'j' :: 'e' :: ' ' :: label =>
    some ("    je ".toList, label)
| _ => none

/- Only a jump has a `j` after the indentation. -/
theorem splitJump?_eq_none
    {cs : List Char}
    (hFirst : cs.head? ≠ some 'j') :
    splitJump? ("    ".toList ++ cs) = none := by
  unfold splitJump?
  split
  · rename_i label hLine
    cases hLine
    exact absurd rfl hFirst
  · rename_i label hLine
    cases hLine
    exact absurd rfl hFirst
  · rfl

end Assembly

namespace Line

/- How a jump starts, and the label that it goes to. -/
def jump? : Line → Option (String × Label)
| instr (.jmp l) => some ("    jmp ", l)
| instr (.je l) => some ("    je ", l)
| _ => none

/- A written line that does not jump. -/
theorem splitJump?_text_eq_none
    (target : Target)
    {i : Instr}
    (hJump : jump? (.instr i) = none) :
    Assembly.splitJump? (text target (.instr i)).toList =
      none := by
  have hFirst : (i.text target).toList.head? ≠ some 'j' := by
    cases i with
    | jmp l | je l =>
        cases hJump
    | _ =>
        simp [Instr.text]
  rw [text, String.toList_append]
  exact Assembly.splitJump?_eq_none hFirst

/- The label that a written line jumps to. -/
theorem splitJump?_text
    (target : Target)
    (l : Line) :
    Assembly.splitJump? (l.text target).toList =
      l.jump?.map fun (start, l) =>
        (start.toList, (l.text target).toList) := by
  cases l with
  | label l =>
      rw [text, String.toList_append, Label.toList_text]
      cases target <;> rfl
  | instr i =>
      cases hJump : jump? (.instr i) with
      | none =>
          exact splitJump?_text_eq_none target hJump
      | some jump =>
          cases i <;> cases hJump <;>
            simp only [text, Instr.text,
              String.toList_append] <;>
            rfl

end Line

end WordLang
