import Mathlib.Data.List.Induction
import Mathlib.Data.Nat.Digits.Defs
import WordLang.Proofs.Lexemes

/-
  This file says what texts are tokens, without reading
  them.

  A token is a punctuator of the table, a word of letters,
  digits and underscores that does not start with a digit,
  or a number: decimal digits, or digits of another radix
  after its mark. At a place in a source, the longest token
  that stands there is taken.

  Key definitions include:
    * `WordLang.Radix`
    * `WordLang.TokenClass`
    * `WordLang.TokenClass.Contains`
    * `WordLang.IsLongest`
    * `WordLang.TokenClass.Describes`
    * `WordLang.Denotes`
    * `WordLang.IsBareMark`

  Key theorems include:
    * `WordLang.IsLongest.unique`
    * `WordLang.Denotes.unique`
-/

namespace WordLang

------------------------------------------------------------
-- Characters
------------------------------------------------------------

/- The characters that stand between tokens. -/
def IsBlank
    (c : Char) : Prop :=
  c = ' ' ∨ c = '\t' ∨ c = '\n' ∨ c = '\r'

/- The characters a word may start with. -/
def IsLetter
    (c : Char) : Prop :=
  ('A' ≤ c ∧ c ≤ 'Z') ∨ ('a' ≤ c ∧ c ≤ 'z') ∨ c = '_'

/- The ways of writing a number. -/
inductive Radix where
  | decimal
  | hexadecimal
  | octal
  | binary
deriving DecidableEq, Repr

namespace Radix

/- The number of different digits. -/
def base : Radix → Nat
| decimal => 10
| hexadecimal => 16
| octal => 8
| binary => 2

/- What stands in front of the digits. -/
def mark : Radix → List Char
| decimal => []
| hexadecimal => ['0', 'x']
| octal => ['0', 'o']
| binary => ['0', 'b']

/- The digits. -/
def IsDigit : Radix → Char → Prop
| decimal, c => '0' ≤ c ∧ c ≤ '9'
| hexadecimal, c =>
    ('0' ≤ c ∧ c ≤ '9') ∨
      ('A' ≤ c ∧ c ≤ 'F') ∨ ('a' ≤ c ∧ c ≤ 'f')
| octal, c => '0' ≤ c ∧ c ≤ '7'
| binary, c => c = '0' ∨ c = '1'

/- What a digit counts for. -/
def digitValue
    (c : Char) : Nat :=
  if c ≤ '9' then
    c.toNat - '0'.toNat
  else if c ≤ 'F' then
    c.toNat - 'A'.toNat + 10
  else
    c.toNat - 'a'.toNat + 10

/- The value of digits, of which the last counts once. -/
def value
    (r : Radix)
    (digits : List Char) : Nat :=
  Nat.ofDigits r.base (digits.map digitValue).reverse

end Radix

------------------------------------------------------------
-- Texts of Tokens
------------------------------------------------------------

/- The kinds of text that are tokens. -/
inductive TokenClass where
  | punctuator
  | word
  | number (r : Radix)
deriving DecidableEq, Repr

namespace TokenClass

/- The texts of a class. -/
def Contains : TokenClass → List Char → Prop
| punctuator, text =>
    ∃ kind, (String.ofList text, kind) ∈ punctuators
| word, text =>
    ∃ c cs,
      text = c :: cs ∧
      IsLetter c ∧
      ∀ d ∈ cs, IsLetter d ∨ Radix.decimal.IsDigit d
| number r, text =>
    ∃ digits,
      text = r.mark ++ digits ∧
      digits ≠ [] ∧
      ∀ d ∈ digits, r.IsDigit d

end TokenClass

/- The texts of all classes. -/
def IsTokenText
    (text : List Char) : Prop :=
  ∃ C : TokenClass, C.Contains text

/- A text is the longest token at the start of another. -/
structure IsLongest
    (rest text : List Char) : Prop where
  isToken : IsTokenText text
  starts : text <+: rest
  longest :
    ∀ other,
      IsTokenText other →
      other <+: rest →
      other.length ≤ text.length

namespace TokenClass

/-
  The kind and the lexeme of a token of a class. The lexeme
  of a number is its value in decimal digits.
-/
def Describes
    (text : List Char)
    (kind : Kind)
    (lexeme : String) :
    TokenClass → Prop
| punctuator =>
    (lexeme, kind) ∈ punctuators ∧
      lexeme = String.ofList text
| word =>
    ((lexeme, kind) ∈ keywords ∨
      (kind = .identifier ∧
        ∀ k, (lexeme, k) ∉ keywords)) ∧
      lexeme = String.ofList text
| number r =>
    kind = .number ∧
      ∃ digits,
        text = r.mark ++ digits ∧
        lexeme = toString (r.value digits)

end TokenClass

/- The kind and the lexeme of the token that a text is. -/
def Denotes
    (text : List Char)
    (kind : Kind)
    (lexeme : String) : Prop :=
  ∃ C : TokenClass,
    C.Contains text ∧ C.Describes text kind lexeme

/- A mark of a radix without a digit after it. -/
def IsBareMark
    (rest : List Char) : Prop :=
  ∃ r : Radix,
    r ≠ .decimal ∧
    r.mark <+: rest ∧
    ∀ d, r.mark ++ [d] <+: rest → ¬ r.IsDigit d

------------------------------------------------------------
-- Character Classes of the Lexer
------------------------------------------------------------

namespace Lexer

theorem isBlank_iff
    (c : Char) :
    isBlank c = true ↔ IsBlank c := by
  simp [isBlank, IsBlank, or_assoc]

theorem isWordStart_iff
    (c : Char) :
    isWordStart c = true ↔ IsLetter c := by
  have hUpper : c.isUpper = true ↔ 'A' ≤ c ∧ c ≤ 'Z' :=
    decide_eq_true_iff
  have hLower : c.isLower = true ↔ 'a' ≤ c ∧ c ≤ 'z' := by
    have hBoth :
        c.isLower =
          (decide ('a' ≤ c) && decide (c ≤ 'z')) := rfl
    rw [hBoth, Bool.and_eq_true, decide_eq_true_iff,
      decide_eq_true_iff]
  have hAlpha : c.isAlpha = (c.isUpper || c.isLower) := rfl
  simp only [isWordStart, IsLetter, hAlpha, Bool.or_eq_true,
    hUpper, hLower, decide_eq_true_eq, or_assoc]

theorem isDigit_iff
    (c : Char) :
    c.isDigit = true ↔ Radix.decimal.IsDigit c := by
  simp [Radix.IsDigit, Char.isDigit, Char.le_def]

theorem isWordChar_iff
    (c : Char) :
    isWordChar c = true ↔
      IsLetter c ∨ Radix.decimal.IsDigit c := by
  rw [← isWordStart_iff, ← isDigit_iff]
  simp [isWordChar, isWordStart, Char.isAlphanum]
  tauto

/- Characters are ordered by their numbers. -/
theorem char_le_iff
    (a b : Char) :
    a ≤ b ↔ a.toNat ≤ b.toNat := by
  rw [Char.le_def, UInt32.le_iff_toNat_le]
  rfl

/- The value of a digit, by the number of the character. -/
theorem digitValue?_eq
    (c : Char) :
    digitValue? c =
      if 48 ≤ c.toNat ∧ c.toNat ≤ 57 then
        some (c.toNat - 48)
      else if 97 ≤ c.toNat ∧ c.toNat ≤ 102 then
        some (c.toNat - 97 + 10)
      else if 65 ≤ c.toNat ∧ c.toNat ≤ 70 then
        some (c.toNat - 65 + 10)
      else
        none := by
  have hDigit :
      c.isDigit = true ↔ 48 ≤ c.toNat ∧ c.toNat ≤ 57 := by
    rw [isDigit_iff, Radix.IsDigit, char_le_iff, char_le_iff]
    rfl
  simp only [digitValue?, hDigit, char_le_iff]
  rfl

/- The digits of a radix, by the number of the character. -/
theorem radix_isDigit_iff
    (r : Radix)
    (c : Char) :
    r.IsDigit c ↔
      match r with
      | .decimal => 48 ≤ c.toNat ∧ c.toNat ≤ 57
      | .hexadecimal =>
          (48 ≤ c.toNat ∧ c.toNat ≤ 57) ∨
            (65 ≤ c.toNat ∧ c.toNat ≤ 70) ∨
            (97 ≤ c.toNat ∧ c.toNat ≤ 102)
      | .octal => 48 ≤ c.toNat ∧ c.toNat ≤ 55
      | .binary => 48 ≤ c.toNat ∧ c.toNat ≤ 49 := by
  cases r with
  | decimal | hexadecimal | octal =>
      simp only [Radix.IsDigit, char_le_iff,
        Char.reduceToNat]
  | binary =>
      have hEq (d : Char) : c = d ↔ c.toNat = d.toNat :=
        Char.toNat_inj.symm
      simp only [Radix.IsDigit, hEq, Char.reduceToNat]
      omega

/- The digits of a radix are those below its base. -/
theorem isDigitOf_iff
    (r : Radix)
    (c : Char) :
    isDigitOf r.base c = true ↔ r.IsDigit c := by
  have hBelow :
      isDigitOf r.base c = true ↔
        ∃ d ∈ digitValue? c, d < r.base := by
    unfold isDigitOf
    cases digitValue? c <;> simp
  rw [hBelow, radix_isDigit_iff, digitValue?_eq]
  cases r <;>
    · simp only [Radix.base]
      split_ifs <;> simp <;> omega

/- The value of a digit does not depend on the radix. -/
theorem digitValue?_of_isDigit
    {r : Radix}
    {c : Char}
    (hDigit : r.IsDigit c) :
    digitValue? c = some (Radix.digitValue c) := by
  rw [radix_isDigit_iff] at hDigit
  rw [digitValue?_eq, Radix.digitValue]
  simp only [char_le_iff, Char.reduceToNat]
  cases r <;>
    · dsimp only at hDigit
      split_ifs <;> first | rfl | omega

/- Digits have the value that the radix gives them. -/
theorem positional_eq_value
    {r : Radix}
    {digits : List Char}
    (hDigits : ∀ d ∈ digits, r.IsDigit d) :
    positional r.base digits = r.value digits := by
  -- The last digit is the one that is added last.
  induction digits using List.reverseRecOn with
  | nil =>
      rfl
  | append_singleton digits c ih =>
      have hInit : ∀ d ∈ digits, r.IsDigit d := by
        intro d hMem
        exact hDigits d (List.mem_append_left _ hMem)
      have hLast : r.IsDigit c :=
        hDigits c (List.mem_append_right _
          List.mem_cons_self)
      have hValue : digitValue? c = some (Radix.digitValue c) :=
        digitValue?_of_isDigit hLast
      have hStep :
          positional r.base (digits ++ [c]) =
            positional r.base digits * r.base +
              Radix.digitValue c := by
        simp [positional, List.foldl_append, hValue]
      rw [hStep, ih hInit]
      simp only [Radix.value, List.map_append,
        List.map_singleton, List.reverse_append,
        List.reverse_singleton, List.singleton_append,
        Nat.ofDigits_cons]
      rw [Nat.mul_comm, Nat.add_comm]

end Lexer

------------------------------------------------------------
-- Classes of a Text
------------------------------------------------------------

/- A letter is no digit. -/
theorem IsLetter.not_isDigit
    {c : Char}
    (hLetter : IsLetter c) :
    ¬ Radix.decimal.IsDigit c := by
  rw [Lexer.radix_isDigit_iff]
  simp only [IsLetter, Lexer.char_le_iff,
    Char.reduceToNat] at hLetter
  rcases hLetter with hUpper | hLower | rfl
  · omega
  · omega
  · decide

namespace TokenClass

/- Every punctuator starts with a character of its own. -/
theorem head_of_punctuator :
    ∀ p ∈ punctuators,
      ∃ c cs,
        p.1.toList = c :: cs ∧
        Lexer.isWordStart c = false ∧
        c.isDigit = false ∧
        Lexer.isBlank c = false := by
  intro p hMem
  have hTable :
      ∀ p ∈ punctuators,
        (p.1.toList.head?.any fun c =>
          !Lexer.isWordStart c && !c.isDigit &&
            !Lexer.isBlank c) = true := by
    decide
  have hHead := hTable p hMem
  cases hText : p.1.toList with
  | nil =>
      simp [hText] at hHead
  | cons c cs =>
      simp only [hText, List.head?_cons, Option.any_some,
        Bool.and_eq_true, Bool.not_eq_true'] at hHead
      rcases hHead with ⟨⟨hWord, hDigit⟩, hBlank⟩
      exact ⟨c, cs, rfl, hWord, hDigit, hBlank⟩

/-
  The first character of a token tells punctuators, words
  and numbers apart.
-/
def Starts
    (c : Char) :
    TokenClass → Prop
| punctuator =>
    ¬ IsLetter c ∧ ¬ Radix.decimal.IsDigit c ∧ ¬ IsBlank c
| word => IsLetter c
| number _ => Radix.decimal.IsDigit c

/- A text of a class has such a first character. -/
theorem Contains.starts
    {C : TokenClass}
    {text : List Char}
    (hContains : C.Contains text) :
    ∃ c cs, text = c :: cs ∧ C.Starts c := by
  cases C with
  | punctuator =>
      rcases hContains with ⟨kind, hMem⟩
      rcases head_of_punctuator _ hMem with
        ⟨c, cs, hText, hWord, hDigit, hBlank⟩
      rw [String.toList_ofList] at hText
      refine ⟨c, cs, hText, ?_, ?_, ?_⟩
      · rw [← Lexer.isWordStart_iff, hWord]
        decide
      · rw [← Lexer.isDigit_iff, hDigit]
        decide
      · rw [← Lexer.isBlank_iff, hBlank]
        decide
  | word =>
      rcases hContains with ⟨c, cs, hText, hLetter, -⟩
      exact ⟨c, cs, hText, hLetter⟩
  | number r =>
      rcases hContains with ⟨digits, rfl, hNonempty, hDigits⟩
      cases r with
      | decimal =>
          rcases List.exists_cons_of_ne_nil hNonempty with
            ⟨c, cs, rfl⟩
          exact ⟨c, cs, rfl, hDigits c List.mem_cons_self⟩
      | hexadecimal | octal | binary =>
          refine ⟨'0', _, rfl, ?_⟩
          exact (Lexer.isDigit_iff '0').mp rfl

/- So has the text in front of which it stands. -/
theorem Contains.starts_at
    {C : TokenClass}
    {text : List Char}
    {c : Char}
    {cs : List Char}
    (hContains : C.Contains text)
    (hStarts : text <+: c :: cs) :
    C.Starts c := by
  rcases hContains.starts with ⟨c', cs', rfl, hHead⟩
  rw [List.cons_prefix_cons] at hStarts
  rw [← hStarts.1]
  exact hHead

/- Punctuators start in their own way. -/
theorem eq_punctuator_of_starts
    {C : TokenClass}
    {c : Char}
    (hPunctuator : punctuator.Starts c)
    (hStarts : C.Starts c) :
    C = punctuator := by
  cases C with
  | punctuator =>
      rfl
  | word =>
      exact absurd hStarts hPunctuator.1
  | number r =>
      exact absurd hStarts hPunctuator.2.1

/- Words start in their own way. -/
theorem eq_word_of_starts
    {C : TokenClass}
    {c : Char}
    (hLetter : IsLetter c)
    (hStarts : C.Starts c) :
    C = word := by
  cases C with
  | punctuator =>
      exact absurd hLetter hStarts.1
  | word =>
      rfl
  | number r =>
      exact absurd hStarts hLetter.not_isDigit

/- Numbers start in their own way. -/
theorem eq_number_of_starts
    {C : TokenClass}
    {c : Char}
    (hDigit : Radix.decimal.IsDigit c)
    (hStarts : C.Starts c) :
    ∃ r, C = number r := by
  cases C with
  | punctuator =>
      exact absurd hDigit hStarts.2.1
  | word =>
      exact absurd hDigit hStarts.not_isDigit
  | number r =>
      exact ⟨r, rfl⟩

/- No token starts with a blank. -/
theorem Starts.not_isBlank
    {C : TokenClass}
    {c : Char}
    (hStarts : C.Starts c) :
    ¬ IsBlank c := by
  intro hBlank
  cases C with
  | punctuator =>
      exact hStarts.2.2 hBlank
  | word =>
      have hWord := (Lexer.isWordStart_iff c).mpr hStarts
      rcases hBlank with rfl | rfl | rfl | rfl <;>
        cases hWord
  | number r =>
      have hDigit := (Lexer.isDigit_iff c).mpr hStarts
      rcases hBlank with rfl | rfl | rfl | rfl <;>
        cases hDigit

/- A number with a mark is not decimal. -/
theorem eq_decimal_of_contains
    {r : Radix}
    {text : List Char}
    (hDecimal : (number .decimal).Contains text)
    (hContains : (number r).Contains text) :
    r = .decimal := by
  rcases hDecimal with ⟨digits, hDecimal, -, hDigits⟩
  rcases hContains with ⟨digits', hText, -, -⟩
  have hSame : digits = r.mark ++ digits' :=
    hDecimal.symm.trans hText
  have hMark (m : Char) (hMem : m ∈ r.mark) :
      m.isDigit = true := by
    apply (Lexer.isDigit_iff m).mpr
    apply hDigits
    rw [hSame]
    exact List.mem_append_left _ hMem
  cases r with
  | decimal =>
      rfl
  | hexadecimal =>
      cases hMark 'x' (by decide)
  | octal =>
      cases hMark 'o' (by decide)
  | binary =>
      cases hMark 'b' (by decide)

/- A number is written in one radix only. -/
theorem radix_unique
    {r r' : Radix}
    {text : List Char}
    (hFirst : (number r).Contains text)
    (hSecond : (number r').Contains text) :
    r = r' := by
  by_cases hDecimal : r = .decimal
  · subst hDecimal
    exact (eq_decimal_of_contains hFirst hSecond).symm
  · by_cases hDecimal' : r' = .decimal
    · subst hDecimal'
      exact eq_decimal_of_contains hSecond hFirst
    · -- The second character is the mark of both.
      rcases hFirst with ⟨digits, rfl, -, -⟩
      rcases hSecond with ⟨digits', hText, -, -⟩
      cases r <;> cases r' <;>
        first | rfl | contradiction | cases hText

/- A text belongs to one class only. -/
theorem Contains.unique
    {C C' : TokenClass}
    {text : List Char}
    (hFirst : C.Contains text)
    (hSecond : C'.Contains text) :
    C = C' := by
  rcases hFirst.starts with ⟨c, cs, rfl, hStarts⟩
  have hStarts' : C'.Starts c :=
    hSecond.starts_at List.prefix_rfl
  cases C with
  | punctuator =>
      exact (eq_punctuator_of_starts hStarts hStarts').symm
  | word =>
      exact (eq_word_of_starts hStarts hStarts').symm
  | number r =>
      rcases eq_number_of_starts hStarts hStarts' with
        ⟨r', rfl⟩
      rw [radix_unique hFirst hSecond]

/- A text is one token only. -/
theorem Describes.unique
    {C : TokenClass}
    {text : List Char}
    {kind kind' : Kind}
    {lexeme lexeme' : String}
    (hFirst : C.Describes text kind lexeme)
    (hSecond : C.Describes text kind' lexeme') :
    kind = kind' ∧ lexeme = lexeme' := by
  cases C with
  | punctuator =>
      rcases hFirst with ⟨hMem, rfl⟩
      rcases hSecond with ⟨hMem', rfl⟩
      have hTable :
          ∀ p ∈ punctuators, ∀ q ∈ punctuators,
            p.1 = q.1 → p.2 = q.2 := by
        decide
      exact ⟨hTable _ hMem _ hMem' rfl, rfl⟩
  | word =>
      rcases hFirst with ⟨hKind, rfl⟩
      rcases hSecond with ⟨hKind', rfl⟩
      refine ⟨?_, rfl⟩
      rcases hKind with hMem | ⟨rfl, hNone⟩
      · rcases hKind' with hMem' | ⟨rfl, hNone⟩
        · rw [← Lexer.keyword?_eq_some_iff] at hMem hMem'
          rw [hMem] at hMem'
          exact Option.some.inj hMem'
        · exact absurd hMem (hNone kind)
      · rcases hKind' with hMem' | ⟨rfl, -⟩
        · exact absurd hMem' (hNone kind')
        · rfl
  | number r =>
      rcases hFirst with ⟨rfl, digits, rfl, rfl⟩
      rcases hSecond with ⟨rfl, digits', hText, rfl⟩
      have hSame : digits = digits' :=
        List.append_cancel_left hText
      rw [hSame]
      exact ⟨rfl, rfl⟩

end TokenClass

theorem Denotes.unique
    {text : List Char}
    {kind kind' : Kind}
    {lexeme lexeme' : String}
    (hFirst : Denotes text kind lexeme)
    (hSecond : Denotes text kind' lexeme') :
    kind = kind' ∧ lexeme = lexeme' := by
  rcases hFirst with ⟨C, hContains, hDescribes⟩
  rcases hSecond with ⟨C', hContains', hDescribes'⟩
  have hClass : C = C' := hContains.unique hContains'
  subst hClass
  exact hDescribes.unique hDescribes'

namespace IsLongest

variable {rest text : List Char}

/- There is one longest token at a place. -/
theorem unique
    {text' : List Char}
    (hFirst : IsLongest rest text)
    (hSecond : IsLongest rest text') :
    text = text' := by
  have hLe : text.length ≤ text'.length :=
    hSecond.longest text hFirst.isToken hFirst.starts
  have hGe : text'.length ≤ text.length :=
    hFirst.longest text' hSecond.isToken hSecond.starts
  have hStarts : text <+: text' :=
    List.prefix_of_prefix_length_le hFirst.starts
      hSecond.starts hLe
  exact hStarts.eq_of_length (Nat.le_antisymm hLe hGe)

/- A token starts with a character that is not blank. -/
theorem head
    (hLongest : IsLongest rest text) :
    ∃ c cs, text = c :: cs ∧ ¬ IsBlank c := by
  rcases hLongest.isToken with ⟨C, hContains⟩
  rcases hContains.starts with ⟨c, cs, hText, hStarts⟩
  exact ⟨c, cs, hText, hStarts.not_isBlank⟩

end IsLongest

end WordLang
