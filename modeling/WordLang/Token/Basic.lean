import WordLang.Span
import WordLang.Text.Quoted

/-
  This file defines the tokens of the language.

  A token is a kind, the text it stands for and the region
  it was read from. Keywords and punctuators are fixed
  words, listed in two tables. Every token list handed to a
  parser is a stream: some tokens, then the end-of-input
  token that stops them.

  Key definitions include:
    * `WordLang.Kind`
    * `WordLang.Kind.symbol?`
    * `WordLang.Kind.describe`
    * `WordLang.keywords`
    * `WordLang.punctuators`
    * `WordLang.Token`
    * `WordLang.Token.text`
    * `WordLang.TokenStream`
    * `WordLang.TokenStream.ofList?`

  Streams and lists that end in an end-of-input token are
  the same thing:
    * `WordLang.TokenStream.ofList?_toList`
    * `WordLang.TokenStream.toList_of_ofList?`
-/

namespace WordLang

------------------------------------------------------------
-- Kinds
------------------------------------------------------------

/- The kinds of token. -/
inductive Kind where
  | kwReturn
  | kwIf
  | kwElse
  | kwWhile
  | kwFor
  | plus
  | minus
  | star
  | slash
  | eqEq
  | notEq
  | less
  | lessEq
  | greater
  | greaterEq
  | assign
  | lparen
  | rparen
  | lbrace
  | rbrace
  | semicolon
  | identifier
  | number
  | eof
deriving DecidableEq, Repr

namespace Kind

/- The kinds in the order of their declaration. -/
def all : List Kind :=
  [kwReturn, kwIf, kwElse, kwWhile, kwFor, plus, minus,
   star, slash, eqEq, notEq, less, lessEq, greater,
   greaterEq, assign, lparen, rparen, lbrace, rbrace,
   semicolon, identifier, number, eof]

/- The name of a kind in token listings. -/
def name : Kind → String
| kwReturn => "Return"
| kwIf => "If"
| kwElse => "Else"
| kwWhile => "While"
| kwFor => "For"
| plus => "Plus"
| minus => "Minus"
| star => "Star"
| slash => "Slash"
| eqEq => "EqEq"
| notEq => "NotEq"
| less => "Less"
| lessEq => "LessEq"
| greater => "Greater"
| greaterEq => "GreaterEq"
| assign => "Assign"
| lparen => "LParen"
| rparen => "RParen"
| lbrace => "LBrace"
| rbrace => "RBrace"
| semicolon => "Semicolon"
| identifier => "Identifier"
| number => "Number"
| eof => "Eof"

/- The kind with a given name in token listings. -/
def ofName?
    (s : String) : Option Kind :=
  all.find? (fun k => k.name == s)

/- The one text that tokens of a kind have, if it is fixed. -/
def symbol? : Kind → Option String
| kwReturn => some "return"
| kwIf => some "if"
| kwElse => some "else"
| kwWhile => some "while"
| kwFor => some "for"
| plus => some "+"
| minus => some "-"
| star => some "*"
| slash => some "/"
| eqEq => some "=="
| notEq => some "!="
| less => some "<"
| lessEq => some "<="
| greater => some ">"
| greaterEq => some ">="
| assign => some "="
| lparen => some "("
| rparen => some ")"
| lbrace => some "\x7b"
| rbrace => some "\x7d"
| semicolon => some ";"
| identifier => none
| number => none
| eof => none

/- A kind as error messages name it. -/
def describe
    (k : Kind) : String :=
  match k, k.symbol? with
  | _, some symbol => "\"" ++ symbol ++ "\""
  | number, none => "number"
  | eof, none => "end of input"
  | _, none => "identifier"

end Kind

------------------------------------------------------------
-- Tables of Fixed Words
------------------------------------------------------------

/- The words that cannot name a variable. -/
def keywords : List (String × Kind) :=
  [("else", .kwElse), ("for", .kwFor), ("if", .kwIf),
   ("return", .kwReturn), ("while", .kwWhile)]

/- The kind of a keyword. -/
def keyword?
    (word : String) : Option Kind :=
  keywords.lookup word

/-
  The punctuators. Those of two characters stand first, so
  that the first match at a position is the longest.
-/
def punctuators : List (String × Kind) :=
  [("==", .eqEq), ("!=", .notEq), ("<=", .lessEq),
   (">=", .greaterEq), ("<", .less), (">", .greater),
   ("+", .plus), ("-", .minus), ("*", .star),
   ("/", .slash), ("=", .assign), ("(", .lparen),
   (")", .rparen), (";", .semicolon), ("\x7b", .lbrace),
   ("\x7d", .rbrace)]

------------------------------------------------------------
-- Tokens
------------------------------------------------------------

/-
  A token. The lexeme of a number is the decimal text of its
  value and that of the end of input is empty; every other
  lexeme is the text that was read.
-/
structure Token where
  kind : Kind
  lexeme : String
  span : Span
deriving DecidableEq, Repr

namespace Token

/- Whether a token marks the end of the input. -/
def isEof
    (t : Token) : Bool :=
  t.kind = .eof

/- A token as one entry of a token listing. -/
def text
    (t : Token) : String :=
  "Token(" ++ t.kind.name ++ ", " ++ Text.quote t.lexeme ++
    ", " ++ t.span.text ++ ")"

end Token

------------------------------------------------------------
-- Streams
------------------------------------------------------------

/- Tokens, and the end-of-input token that stops them. -/
structure TokenStream where
  tokens : List Token
  stop : Token
  isEof_stop : stop.isEof = true
deriving DecidableEq

namespace TokenStream

/- All tokens of a stream, the stopping one included. -/
def toList
    (s : TokenStream) : List Token :=
  s.tokens ++ [s.stop]

/- The stream of a list that ends in an end-of-input token. -/
def ofList?
    (ts : List Token) : Option TokenStream :=
  match ts.getLast? with
  | none => none
  | some stop =>
      if h : stop.isEof = true then
        some ⟨ts.dropLast, stop, h⟩
      else
        none

/- The list of a stream gives the stream back. -/
theorem ofList?_toList
    (s : TokenStream) :
    ofList? s.toList = some s := by
  simp [ofList?, toList, s.isEof_stop]

/- A stream is made from its own list only. -/
theorem toList_of_ofList?
    {ts : List Token}
    {s : TokenStream}
    (h : ofList? ts = some s) :
    s.toList = ts := by
  unfold ofList? at h
  split at h
  · contradiction
  · rename_i stop hLast
    split at h
    · rw [Option.some.injEq] at h
      subst h
      obtain ⟨init, rfl⟩ :=
        List.getLast?_eq_some_iff.1 hLast
      simp [toList]
    · contradiction

end TokenStream

end WordLang
