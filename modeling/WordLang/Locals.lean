import WordLang.Text.Quoted

/-
  This file defines the table of local variables.

  A variable is declared by its first use. Each one takes a
  word of the stack frame, and its offset is the distance
  in bytes from the frame base down to that word: 8 for the
  first name, 16 for the second, and so on. Offsets are
  32-bit words, as in the address they become part of, and
  their arithmetic wraps.

  Key definitions include:
    * `WordLang.Offset`
    * `WordLang.Locals`
    * `WordLang.Locals.offsetAt`
    * `WordLang.Locals.offset?`
    * `WordLang.Locals.resolve`
    * `WordLang.Locals.nameOf?`
    * `WordLang.Locals.bytes`
-/

namespace WordLang

------------------------------------------------------------
-- Offsets
------------------------------------------------------------

/- A distance in bytes below the base of the frame. -/
structure Offset where
  bytes : UInt32
deriving DecidableEq, Repr

namespace Offset

/- The number of bytes of a machine word. -/
def wordSize : UInt32 := 8

/- An offset in decimal digits. -/
def text
    (o : Offset) : String :=
  toString o.bytes.toNat

end Offset

------------------------------------------------------------
-- Tables
------------------------------------------------------------

/- The names of a routine's variables, in order of use. -/
structure Locals where
  names : List String
deriving DecidableEq, Repr

namespace Locals

/- The table without variables. -/
def empty : Locals := ⟨[]⟩

/- The number of variables. -/
def size
    (t : Locals) : Nat :=
  t.names.length

/- Whether there are no variables. -/
def isEmpty
    (t : Locals) : Bool :=
  t.names.isEmpty

/- The offset of the variable with the given index. -/
def offsetAt
    (index : Nat) : Offset :=
  ⟨(UInt32.ofNat index + 1) * Offset.wordSize⟩

/- The offset of a name that is in the table. -/
def offset?
    (t : Locals)
    (name : String) : Option Offset :=
  (t.names.idxOf? name).map offsetAt

/-
  The offset of a name, and the table that has it. A name
  that is not in the table takes the next free word.
-/
def resolve
    (t : Locals)
    (name : String) : Offset × Locals :=
  match t.offset? name with
  | some offset => (offset, t)
  | none => (offsetAt t.size, ⟨t.names ++ [name]⟩)

/- The table that results from resolving some names. -/
def ofNames
    (names : List String) : Locals :=
  names.foldl (fun t name => (t.resolve name).2) empty

/- The name of the variable at an offset. -/
def nameOf?
    (t : Locals)
    (o : Offset) : Option String :=
  if o.bytes % Offset.wordSize = 0 ∧
      Offset.wordSize ≤ o.bytes then
    t.names[(o.bytes / Offset.wordSize).toNat - 1]?
  else
    none

/- Whether an offset belongs to a variable. -/
def contains
    (t : Locals)
    (o : Offset) : Bool :=
  (t.nameOf? o).isSome

/- The variables with their offsets, in order of use. -/
def entries
    (t : Locals) : List (String × Offset) :=
  t.names.zipIdx.map
    (fun (name, index) => (name, offsetAt index))

/- The number of bytes that all variables take. -/
def bytes
    (t : Locals) : UInt32 :=
  (offsetAt t.size).bytes - Offset.wordSize

/- A table as a list of names and offsets in braces. -/
def text
    (t : Locals) : String :=
  "\x7b" ++
    ", ".intercalate
      (t.entries.map
        (fun (name, o) =>
          Text.quote name ++ ": " ++ o.text)) ++
    "\x7d"

end Locals

end WordLang
