import Mathlib.Algebra.Group.Nat.Defs
import Mathlib.Order.Bounds.Defs
import WordLang.Program.Lowering

/-
  This file says where the variables of a routine lie.

  The offsets of a table are the multiples of eight from 8
  up to the size of the table in bytes, and the frame holds
  them all as long as the table is small enough for 32-bit
  arithmetic.

  Key theorems include:
    * `WordLang.Locals.contains_iff`
    * `WordLang.Locals.toNat_offsetAt`
    * `WordLang.Locals.nameOf?_of_offset?`
    * `WordLang.Locals.toNat_bytes`
    * `WordLang.Program.toNat_frameSize_of_room`
    * `WordLang.Program.isLeast_frameSize_of_room`
-/

namespace WordLang

namespace Locals

/- The name at an offset, by the number of bytes. -/
theorem nameOf?_eq
    (t : Locals)
    (o : Offset) :
    t.nameOf? o =
      if o.bytes.toNat % 8 = 0 ∧ 8 ≤ o.bytes.toNat then
        t.names[o.bytes.toNat / 8 - 1]?
      else
        none := by
  have hMod :
      o.bytes % Offset.wordSize = 0 ↔
        o.bytes.toNat % 8 = 0 := by
    rw [← UInt32.toNat_inj, UInt32.toNat_mod]
    rfl
  have hLe :
      Offset.wordSize ≤ o.bytes ↔ 8 ≤ o.bytes.toNat :=
    UInt32.le_iff_toNat_le
  have hDiv :
      (o.bytes / Offset.wordSize).toNat =
        o.bytes.toNat / 8 := by
    rw [UInt32.toNat_div]
    rfl
  simp only [nameOf?, hMod, hLe, hDiv]

/- The offsets of a table, by their numbers of bytes. -/
theorem contains_iff
    (t : Locals)
    (o : Offset) :
    t.contains o = true ↔
      o.bytes.toNat % 8 = 0 ∧
      8 ≤ o.bytes.toNat ∧
      o.bytes.toNat ≤ 8 * t.size := by
  rw [contains, nameOf?_eq]
  by_cases hWord :
      o.bytes.toNat % 8 = 0 ∧ 8 ≤ o.bytes.toNat
  · simp only [hWord, and_self, if_true,
      true_and, isSome_getElem?]
    show o.bytes.toNat / 8 - 1 < t.size ↔ _
    omega
  · rw [if_neg hWord]
    simp only [Option.isSome_none, Bool.false_eq_true,
      false_iff]
    intro hOffset
    exact hWord ⟨hOffset.1, hOffset.2.1⟩

/- The offsets of a table, by the places of its names. -/
theorem contains_iff_exists
    (t : Locals)
    (o : Offset) :
    t.contains o = true ↔
      ∃ i, i < t.size ∧ o.bytes.toNat = 8 * (i + 1) := by
  rw [contains_iff]
  constructor
  · rintro ⟨hWord, hLow, hHigh⟩
    exact ⟨o.bytes.toNat / 8 - 1, by omega, by omega⟩
  · rintro ⟨i, hLess, hBytes⟩
    exact ⟨by omega, by omega, by omega⟩

/- Small indices have offsets that do not wrap. -/
theorem toNat_offsetAt
    {index : Nat}
    (hIndex : index + 1 < 2 ^ 29) :
    (offsetAt index).bytes.toNat = 8 * (index + 1) := by
  rw [offsetAt, UInt32.toNat_mul, UInt32.toNat_add,
    UInt32.toNat_ofNat']
  show (index % 2 ^ 32 + 1) % 2 ^ 32 * 8 % 2 ^ 32 = _
  omega

/- In a small table each name is found at its offset. -/
theorem nameOf?_of_offset?
    {t : Locals}
    {name : String}
    {offset : Offset}
    (hSize : t.size < 2 ^ 29)
    (hOffset : t.offset? name = some offset) :
    t.nameOf? offset = some name := by
  rcases Option.map_eq_some_iff.mp hOffset with
    ⟨index, hIndex, rfl⟩
  rcases List.idxOf?_eq_some_iff.mp hIndex with
    ⟨hLess, hName, -⟩
  have hLess : index < t.size := hLess
  have hBytes :
      (offsetAt index).bytes.toNat = 8 * (index + 1) :=
    toNat_offsetAt (by omega)
  have hPlace : 8 * (index + 1) / 8 - 1 = index := by
    omega
  rw [nameOf?_eq, hBytes, if_pos (by omega), hPlace,
    List.getElem?_eq_getElem hLess]
  exact congrArg some hName

/- A small table takes eight bytes for each variable. -/
theorem toNat_bytes
    (t : Locals)
    (hSize : t.size + 1 < 2 ^ 29) :
    t.bytes.toNat = 8 * t.size := by
  rw [bytes, offsetAt, UInt32.toNat_sub, UInt32.toNat_mul,
    UInt32.toNat_add, UInt32.toNat_ofNat']
  show (2 ^ 32 - 8 +
    (t.size % 2 ^ 32 + 1) % 2 ^ 32 * 8 % 2 ^ 32) %
      2 ^ 32 = 8 * t.size
  omega

end Locals

namespace Program

/- Two variables fill a part of the frame. -/
theorem bytes_mod_eq_zero_iff
    (t : Locals)
    (hRoom : t.size + 1 < 2 ^ 29) :
    t.bytes % frameAlignment = 0 ↔ t.size % 2 = 0 := by
  rw [← UInt32.toNat_inj, UInt32.toNat_mod,
    Locals.toNat_bytes t hRoom]
  show 8 * t.size % 16 = 0 ↔ _
  omega

theorem toNat_bytes_div
    (t : Locals)
    (hRoom : t.size + 1 < 2 ^ 29) :
    (t.bytes / frameAlignment).toNat = t.size / 2 := by
  rw [UInt32.toNat_div, Locals.toNat_bytes t hRoom]
  show 8 * t.size / 16 = _
  omega

/-
  The frame takes 16 bytes for two variables as long as the
  bytes of the table do not wrap.
-/
theorem toNat_frameSize_of_room
    (t : Locals)
    (hRoom : t.size + 1 < 2 ^ 29) :
    (frameSize t).toNat = 16 * ((t.size + 1) / 2) := by
  rw [frameSize, alignTo, UInt32.toNat_mul]
  simp only [bytes_mod_eq_zero_iff t hRoom]
  by_cases hEven : t.size % 2 = 0
  · rw [if_pos hEven, toNat_bytes_div t hRoom]
    show t.size / 2 * 16 % 2 ^ 32 = _
    omega
  · rw [if_neg hEven, UInt32.toNat_add,
      toNat_bytes_div t hRoom]
    show (t.size / 2 + 1) % 2 ^ 32 * 16 % 2 ^ 32 = _
    omega

/- The frame of a small table. -/
theorem toNat_frameSize
    (t : Locals)
    (hSize : t.size < 2 ^ 28) :
    (frameSize t).toNat = 16 * ((t.size + 1) / 2) :=
  toNat_frameSize_of_room t (by omega)

/-
  The frame is the least multiple of 16 bytes that holds all
  variables.
-/
theorem isLeast_frameSize_of_room
    (t : Locals)
    (hRoom : t.size + 1 < 2 ^ 29) :
    IsLeast {n | 16 ∣ n ∧ 8 * t.size ≤ n}
      (frameSize t).toNat := by
  rw [toNat_frameSize_of_room t hRoom]
  constructor
  · exact ⟨Nat.dvd_mul_right 16 _, by omega⟩
  · rintro n ⟨⟨k, rfl⟩, hHolds⟩
    omega

/- The frame holds all variables. -/
theorem bytes_le_frameSize
    (t : Locals)
    (hSize : t.size < 2 ^ 28) :
    8 * t.size ≤ (frameSize t).toNat := by
  rw [toNat_frameSize t hSize]
  omega

end Program

end WordLang
