/-
  This file measures and cuts texts by bytes.

  Positions in a source text count the bytes of its UTF-8
  form, while the text itself is a list of characters. A
  cut is possible only between two characters, so cutting
  at an arbitrary byte position may have no answer.

  Key definitions include:
    * `WordLang.Text.byteLength`
    * `WordLang.Text.splitAtByte?`
    * `WordLang.Text.slice?`
    * `WordLang.Text.takeBytes`

  What a cut is is said by:
    * `WordLang.Text.byteLength_append`
    * `WordLang.Text.splitAtByte?_eq_some_iff`
-/

namespace WordLang

namespace Text

------------------------------------------------------------
-- Lengths
------------------------------------------------------------

/- The number of bytes of the UTF-8 form of a text. -/
def byteLength : List Char → Nat
| [] => 0
| c :: cs => c.utf8Size + byteLength cs

/- Lengths add up. -/
theorem byteLength_append
    (xs ys : List Char) :
    byteLength (xs ++ ys) =
      byteLength xs + byteLength ys := by
  induction xs with
  | nil =>
      simp [byteLength]
  | cons c cs ih =>
      simp [byteLength, ih, Nat.add_assoc]

------------------------------------------------------------
-- Cuts
------------------------------------------------------------

/-
  The text before and after byte position `n`. There is no
  answer when `n` lies inside a character or past the end.
-/
def splitAtByte? :
    Nat →
    List Char →
    Option (List Char × List Char)
| 0, cs => some ([], cs)
| _ + 1, [] => none
| n + 1, c :: cs =>
    if c.utf8Size ≤ n + 1 then
      (splitAtByte? (n + 1 - c.utf8Size) cs).map
        (fun (before, after) => (c :: before, after))
    else
      none

/- The cut at the end of the first part of a text. -/
theorem splitAtByte?_byteLength
    (xs ys : List Char) :
    splitAtByte? (byteLength xs) (xs ++ ys) =
      some (xs, ys) := by
  induction xs with
  | nil =>
      simp [byteLength, splitAtByte?]
  | cons c cs ih =>
      have hPos : 0 < c.utf8Size := Char.utf8Size_pos c
      obtain ⟨n, hn⟩ :
          ∃ n, byteLength (c :: cs) = n + 1 :=
        Nat.exists_eq_succ_of_ne_zero
          (by simp only [byteLength]; omega)
      have hRest :
          n + 1 - c.utf8Size = byteLength cs := by
        simp only [byteLength] at hn
        omega
      have hFits : c.utf8Size ≤ n + 1 := by
        simp only [byteLength] at hn
        omega
      rw [hn, List.cons_append, splitAtByte?]
      simp [hFits, hRest, ih]

/-
  A cut is a division of the text whose first part has the
  given number of bytes.
-/
theorem splitAtByte?_eq_some_iff
    {n : Nat}
    {cs xs ys : List Char} :
    splitAtByte? n cs = some (xs, ys) ↔
      cs = xs ++ ys ∧ byteLength xs = n := by
  constructor
  · intro h
    induction cs generalizing n xs ys with
    | nil =>
        cases n with
        | zero =>
            simp only [splitAtByte?, Option.some.injEq,
              Prod.mk.injEq] at h
            obtain ⟨rfl, rfl⟩ := h
            simp [byteLength]
        | succ n =>
            simp [splitAtByte?] at h
    | cons c cs ih =>
        cases n with
        | zero =>
            simp only [splitAtByte?, Option.some.injEq,
              Prod.mk.injEq] at h
            obtain ⟨rfl, rfl⟩ := h
            simp [byteLength]
        | succ n =>
            rw [splitAtByte?] at h
            split at h
            · rename_i hFits
              obtain ⟨⟨before, after⟩, hCut, hEq⟩ :=
                Option.map_eq_some_iff.1 h
              simp only [Prod.mk.injEq] at hEq
              obtain ⟨rfl, rfl⟩ := hEq
              obtain ⟨hText, hLength⟩ := ih hCut
              refine ⟨by rw [hText, List.cons_append], ?_⟩
              simp only [byteLength]
              omega
            · contradiction
  · rintro ⟨rfl, rfl⟩
    exact splitAtByte?_byteLength xs ys

/- The `len` bytes of a text from byte position `lo` on. -/
def slice?
    (lo len : Nat)
    (cs : List Char) : Option (List Char) := do
  let (_, after) ← splitAtByte? lo cs
  let (inside, _) ← splitAtByte? len after
  return inside

/-
  The longest run of whole characters at the start of a
  text that fits into `room` bytes.
-/
def takeBytes :
    Nat →
    List Char →
    List Char
| _, [] => []
| room, c :: cs =>
    if c.utf8Size ≤ room then
      c :: takeBytes (room - c.utf8Size) cs
    else
      []

end Text

end WordLang
