import Mathlib.Algebra.Group.Nat.Defs
import WordLang.Expr.Literal

/-
  This file proves that decimal numerals are read back.

  Key theorems include:
    * `WordLang.Literal.decimal?_toString`
    * `WordLang.Literal.read?_toString`
    * `WordLang.Literal.read?_toString_toInt`
-/

namespace WordLang

namespace Literal

/- The characters of a numeral. -/
theorem toList_toString
    (n : Nat) :
    (toString n).toList = Nat.toDigits 10 n := by
  rw [Nat.toString_eq_repr, Nat.toList_repr]

/- A numeral is made of digits. -/
theorem isDigit_of_mem_toString
    {n : Nat}
    {c : Char}
    (hChar : c ∈ (toString n).toList) :
    c.isDigit = true := by
  rw [toList_toString] at hChar
  exact Nat.isDigit_of_mem_toDigits (by decide) (by decide)
    hChar

/- A numeral is not empty. -/
theorem toString_ne_nil
    (n : Nat) :
    (toString n).toList ≠ [] := by
  rw [toList_toString]
  exact Nat.toDigits_ne_nil

/- The digits of a number add up to it. -/
theorem foldl_toString
    (n : Nat) :
    (toString n).toList.foldl
      (fun v c => v * 10 + (c.toNat - '0'.toNat)) 0 =
      n := by
  rw [toList_toString]
  simpa only [Nat.ofDigitChars_eq_foldl,
    Nat.mul_comm 10] using
    Nat.ofDigitChars_ten_toDigits (n := n)

/- The digits of a number have its value. -/
theorem decimal?_toString
    (n : Nat) :
    decimal? (toString n).toList = some n := by
  have hDigits :
      (toString n).toList.all Char.isDigit = true :=
    List.all_eq_true.mpr fun _ => isDigit_of_mem_toString
  have hNonempty :
      (toString n).toList.isEmpty = false := by
    simp
  rw [decimal?, hNonempty, hDigits, foldl_toString]
  rfl

/- A numeral tells the number. -/
theorem toString_injective
    {m n : Nat}
    (hSame : toString m = toString n) :
    m = n := by
  have hValue := decimal?_toString m
  rw [hSame, decimal?_toString] at hValue
  exact (Option.some.inj hValue).symm

/- A text of digits is read as the number they write. -/
theorem read?_of_digits
    {s : String}
    (hDigits : ∀ c ∈ s.toList, c.isDigit = true) :
    read? s =
      (decimal? s.toList).bind
        (fun (n : Nat) => word? (n : Int)) := by
  unfold read?
  split
  · rename_i digits hChars
    have hSign := hDigits '-' (by rw [hChars]; simp)
    contradiction
  · rename_i digits hChars
    have hSign := hDigits '+' (by rw [hChars]; simp)
    contradiction
  · rfl

/- The numeral of a number that is a word is read back. -/
theorem read?_toString
    {n : Nat}
    (hRange : n < 2 ^ 63) :
    read? (toString n) = some (Int64.ofNat n) := by
  rw [read?_of_digits fun _ => isDigit_of_mem_toString,
    decimal?_toString, Option.bind_some, word?,
    if_pos (by unfold bound; omega)]
  exact congrArg some (Int64.ofInt_eq_ofNat)

/- The numeral of a negative number has a sign. -/
theorem toList_toString_negSucc
    (n : Nat) :
    (toString (Int.negSucc n)).toList =
      '-' :: (toString (n + 1)).toList := by
  rw [Int.toString_eq_repr, Int.repr_eq_if,
    if_neg (by omega), String.toList_append]
  rfl

/- A numeral with a sign is made of digits and the sign. -/
theorem isDigit_or_eq_of_mem_toString
    {v : Int}
    {c : Char}
    (hChar : c ∈ (toString v).toList) :
    c.isDigit = true ∨ c = '-' := by
  cases v with
  | ofNat n =>
      exact .inl (isDigit_of_mem_toString hChar)
  | negSucc n =>
      rw [toList_toString_negSucc] at hChar
      rcases List.mem_cons.mp hChar with hSign | hDigit
      · exact .inr hSign
      · exact .inl (isDigit_of_mem_toString hDigit)

/- A numeral with a sign is not empty. -/
theorem toString_toInt_ne_nil
    (v : Int) :
    (toString v).toList ≠ [] := by
  cases v with
  | ofNat n =>
      exact toString_ne_nil n
  | negSucc n =>
      rw [toList_toString_negSucc]
      exact List.cons_ne_nil _ _

/- The numeral of a word is read back. -/
theorem read?_toString_toInt
    (v : Int64) :
    read? (toString v.toInt) = some v := by
  have hLow := Int64.le_toInt v
  have hHigh := Int64.toInt_lt v
  have hBack : Int64.ofInt v.toInt = v := Int64.ofInt_toInt v
  have hWord : word? v.toInt = some v := by
    rw [word?, if_pos (by unfold bound; omega), hBack]
  cases hValue : v.toInt with
  | ofNat n =>
      rw [hValue] at hWord
      show read? (toString n) = some v
      rw [read?_of_digits fun _ => isDigit_of_mem_toString,
        decimal?_toString, Option.bind_some]
      exact hWord
  | negSucc n =>
      rw [hValue] at hWord
      unfold read?
      rw [toList_toString_negSucc]
      show (decimal? (toString (n + 1)).toList).bind _ = _
      rw [decimal?_toString, Option.bind_some]
      exact hWord

/- A word is told by its numeral. -/
theorem toString_toInt_injective
    {v w : Int64}
    (hSame : toString v.toInt = toString w.toInt) :
    v = w := by
  have hValue := read?_toString_toInt v
  rw [hSame, read?_toString_toInt w] at hValue
  exact (Option.some.inj hValue).symm

end Literal

end WordLang
