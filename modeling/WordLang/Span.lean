/-
  This file defines regions of a source text.

  A span is a byte position and a byte length. Lengths are
  32-bit quantities: a region too long for one is recorded
  with the greatest length there is. Spans order nothing
  and need not lie inside any text, so that values built by
  hand are covered as well as those read from a source.

  Key definitions include:
    * `WordLang.Span`
    * `WordLang.Span.hi`
    * `WordLang.Span.between`
    * `WordLang.Span.between?`
    * `WordLang.Span.through`
    * `WordLang.Span.text`
    * `WordLang.Located`
-/

namespace WordLang

------------------------------------------------------------
-- Spans
------------------------------------------------------------

/- The region of `len` bytes that starts at byte `lo`. -/
structure Span where
  lo : Nat
  len : Nat
deriving DecidableEq, Repr, Inhabited

namespace Span

/- The greatest length a span records. -/
def maxLen : Nat := 4294967295

/- The byte position just after the region. -/
def hi
    (s : Span) : Nat :=
  s.lo + s.len

/-
  The region from `lo` up to `hi`. Its length stops at
  `maxLen`, and it is empty when `hi` is not after `lo`.
-/
def between
    (lo hi : Nat) : Span :=
  ⟨lo, min (hi - lo) maxLen⟩

/- The region from `lo` up to `hi`, unless it is reversed. -/
def between?
    (lo hi : Nat) : Option Span :=
  if lo ≤ hi then some (between lo hi) else none

/-
  The region from the start of `s` to the end of `t`, or to
  the start of `s` when `t` ends before it.
-/
def through
    (s t : Span) : Span :=
  between s.lo (max t.hi s.lo)

/- The region as it is printed, `lo..hi`. -/
def text
    (s : Span) : String :=
  toString s.lo ++ ".." ++ toString s.hi

end Span

------------------------------------------------------------
-- Values With a Position
------------------------------------------------------------

/- A value together with the region it is about. -/
structure Located (α : Type) where
  value : α
  span : Span
deriving DecidableEq, Repr

end WordLang
