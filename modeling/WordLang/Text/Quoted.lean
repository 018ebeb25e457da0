import WordLang.Text.Unprintable

/-
  This file writes characters and strings in quotes.

  Inside quotes a backslash starts an escape. The null,
  tab, return and line feed characters and the backslash
  have short escapes, the quote in use is escaped, and an
  unprintable character is written by its code point in
  hexadecimal digits. All else stands for itself.

  Key definitions include:
    * `WordLang.Text.quoteChar`
    * `WordLang.Text.quote`
-/

namespace WordLang

namespace Text

/-
  A code point in lower-case hexadecimal digits without
  leading zeros.
-/
def hex
    (n : Nat) : List Char :=
  Nat.toDigits 16 n

/- A character as it stands between two `mark` characters. -/
def escape
    (mark c : Char) : List Char :=
  match c with
  | '\x00' => ['\\', '0']
  | '\t' => ['\\', 't']
  | '\r' => ['\\', 'r']
  | '\n' => ['\\', 'n']
  | '\\' => ['\\', '\\']
  | c =>
      if c = mark then
        ['\\', c]
      else if isUnprintable c then
        ['\\', 'u', '\x7b'] ++ hex c.toNat ++ ['\x7d']
      else
        [c]

/- A character in single quotes. -/
def quoteChar
    (c : Char) : String :=
  String.ofList ('\x27' :: escape '\x27' c ++ ['\x27'])

/- A string in double quotes. -/
def quote
    (s : String) : String :=
  String.ofList
    ('\x22' ::
      s.toList.flatMap (escape '\x22') ++ ['\x22'])

end Text

end WordLang
