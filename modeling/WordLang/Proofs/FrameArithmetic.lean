import WordLang.Proofs.NameTables

/-
  This file says for which tables the 32-bit arithmetic of
  the frame is exact.

  The number of a variable has to fit into a word before its
  offset is computed. The offset is eight times as large,
  and so are the bytes of a table, so that this check comes
  too late: offsets wrap from the variable with index
  2 ^ 29 - 1 on. The bytes of a table are computed from the
  offset of one variable more than it has, and wrap one name
  earlier. Rounding them up wraps for the same tables.

  To say that nothing wraps, each computation is also done
  with checked operations, which have no result when a word
  is too small for it.

  Key definitions include:
    * `WordLang.Word.mul?`
    * `WordLang.Locals.offsetAt?`
    * `WordLang.Locals.ofNames?`
    * `WordLang.Locals.bytes?`
    * `WordLang.Program.frameSize?`

  Key theorems include:
    * `WordLang.Locals.offsetAt?_eq`
    * `WordLang.Locals.ofNames?_eq`
    * `WordLang.Locals.bytes?_eq`
    * `WordLang.Program.frameSize?_eq`
    * `WordLang.frame_is_exact_below_capacity`
-/

namespace WordLang

------------------------------------------------------------
-- Checked Words
------------------------------------------------------------

namespace Word

/- The word for a number, if there is one. -/
def ofNat?
    (n : Nat) : Option UInt32 :=
  if n < UInt32.size then some (UInt32.ofNat n) else none

/- A sum that does not wrap. -/
def add?
    (a b : UInt32) : Option UInt32 :=
  ofNat? (a.toNat + b.toNat)

/- A difference that does not wrap. -/
def sub?
    (a b : UInt32) : Option UInt32 :=
  if b ≤ a then some (a - b) else none

/- A product that does not wrap. -/
def mul?
    (a b : UInt32) : Option UInt32 :=
  ofNat? (a.toNat * b.toNat)

theorem ofNat?_eq_some_iff
    {n : Nat}
    {a : UInt32} :
    ofNat? n = some a ↔ a.toNat = n := by
  unfold ofNat?
  split
  · rename_i hFits
    rw [Option.some.injEq, ← UInt32.toNat_inj,
      UInt32.toNat_ofNat_of_lt' hFits, eq_comm]
  · rename_i hLarge
    refine iff_of_false nofun ?_
    rintro rfl
    exact hLarge a.toNat_lt

theorem sub?_eq_some_iff
    {a b c : UInt32} :
    sub? a b = some c ↔ c.toNat + b.toNat = a.toNat := by
  unfold sub?
  split
  · rename_i hLe
    rw [Option.some.injEq, ← UInt32.toNat_inj,
      UInt32.toNat_sub_of_le a b hLe]
    rw [UInt32.le_iff_toNat_le] at hLe
    omega
  · rename_i hLess
    rw [UInt32.le_iff_toNat_le] at hLess
    refine iff_of_false nofun ?_
    omega

end Word

------------------------------------------------------------
-- Tables
------------------------------------------------------------

namespace Locals

/-
  The offset of an index that fits into a word, computed
  without wrapping.
-/
def offsetAt?
    (index : Nat) : Option Offset := do
  let number ← Word.ofNat? index
  let count ← Word.add? number 1
  let bytes ← Word.mul? count Offset.wordSize
  return ⟨bytes⟩

/- The offset of a name, without wrapping. -/
def resolve?
    (t : Locals)
    (name : String) : Option (Offset × Locals) :=
  match t.offset? name with
  | some offset => some (offset, t)
  | none => do
      let offset ← offsetAt? t.size
      return (offset, ⟨t.names ++ [name]⟩)

/- The table that names are resolved in without wrapping. -/
def ofNames?
    (names : List String) : Option Locals :=
  names.foldlM
    (fun t name => (t.resolve? name).map Prod.snd) empty

/- The bytes of all variables, without wrapping. -/
def bytes?
    (t : Locals) : Option UInt32 := do
  let past ← offsetAt? t.size
  Word.sub? past.bytes Offset.wordSize

/- The checked offset has exactly the bytes it should. -/
theorem offsetAt?_eq_some_iff
    {index : Nat}
    {o : Offset} :
    offsetAt? index = some o ↔
      o.bytes.toNat = 8 * (index + 1) := by
  have hOne : (1 : UInt32).toNat = 1 := rfl
  have hWord : Offset.wordSize.toNat = 8 := rfl
  simp only [offsetAt?, Word.add?, Word.mul?, bind,
    Option.bind_eq_some_iff, Word.ofNat?_eq_some_iff, pure,
    Option.some.injEq, hOne, hWord]
  constructor
  · rintro ⟨number, rfl, count, hCount, bytes, hBytes, rfl⟩
    rw [hBytes, hCount, Nat.mul_comm]
  · intro hBytes
    have hLess := o.bytes.toNat_lt
    have hSize : UInt32.size = 2 ^ 32 := rfl
    have hNumber : (UInt32.ofNat index).toNat = index :=
      UInt32.toNat_ofNat_of_lt' (by omega)
    have hCount :
        (UInt32.ofNat (index + 1)).toNat = index + 1 :=
      UInt32.toNat_ofNat_of_lt' (by omega)
    refine ⟨UInt32.ofNat index, hNumber,
      UInt32.ofNat (index + 1), ?_, o.bytes, ?_, rfl⟩
    · rw [hCount, hNumber]
    · rw [hBytes, hCount, Nat.mul_comm]

/- The offsets that do not wrap. -/
theorem offsetAt?_eq
    (index : Nat) :
    offsetAt? index =
      if index + 1 < 2 ^ 29 then
        some (offsetAt index)
      else
        none := by
  split
  · rename_i hSmall
    rw [offsetAt?_eq_some_iff]
    exact toNat_offsetAt hSmall
  · rename_i hLarge
    rw [Option.eq_none_iff_forall_ne_some]
    intro o hOffset
    rw [offsetAt?_eq_some_iff] at hOffset
    have hWord := o.bytes.toNat_lt
    omega

/- A table is not smaller after a call. -/
theorem size_le_resolve
    (t : Locals)
    (name : String) :
    t.size ≤ (t.resolve name).2.size :=
  (t.extends_resolve name).1.length_le

/- A call wraps when it makes the table too large. -/
theorem resolve?_eq
    {t : Locals}
    (hSize : t.size < 2 ^ 29)
    (name : String) :
    t.resolve? name =
      if (t.resolve name).2.size < 2 ^ 29 then
        some (t.resolve name)
      else
        none := by
  unfold resolve? resolve
  cases t.offset? name with
  | some offset =>
      exact (if_pos hSize).symm
  | none =>
      have hMore :
          size ⟨t.names ++ [name]⟩ = t.size + 1 :=
        List.length_append
      simp only [offsetAt?_eq, hMore]
      split
      · rfl
      · rfl

/- Tables of fewer than 2 ^ 29 names are built exactly. -/
theorem ofNames?_eq
    (names : List String) :
    ofNames? names =
      if (ofNames names).size < 2 ^ 29 then
        some (ofNames names)
      else
        none := by
  induction names using List.reverseRecOn with
  | nil =>
      rfl
  | append_singleton names name ih =>
      have hCall :
          ofNames? (names ++ [name]) =
            (ofNames? names).bind
              (fun t => (t.resolve? name).map Prod.snd) := by
        simp only [ofNames?, List.foldlM_append,
          List.foldlM_cons, List.foldlM_nil, bind_pure]
        rfl
      have hGrows := (ofNames names).size_le_resolve name
      rw [hCall, ih, ofNames_concat]
      by_cases hSize : (ofNames names).size < 2 ^ 29
      · rw [if_pos hSize, Option.bind_some,
          resolve?_eq hSize]
        split
        · rfl
        · rfl
      · rw [if_neg hSize, if_neg (by omega)]
        rfl

/- The bytes of a table wrap one name earlier. -/
theorem bytes?_eq
    (t : Locals) :
    t.bytes? =
      if t.size + 1 < 2 ^ 29 then
        some t.bytes
      else
        none := by
  unfold bytes?
  rw [offsetAt?_eq]
  split
  · rename_i hSmall
    have hPast := toNat_offsetAt hSmall
    have hBytes := t.toNat_bytes hSmall
    have hWord : Offset.wordSize.toNat = 8 := rfl
    show Word.sub? (offsetAt t.size).bytes Offset.wordSize =
      some t.bytes
    rw [Word.sub?_eq_some_iff]
    omega
  · rfl

end Locals

------------------------------------------------------------
-- Frames
------------------------------------------------------------

namespace Program

/- The least multiple of a word, without wrapping. -/
def alignTo?
    (n align : UInt32) : Option UInt32 := do
  let count ←
    if n % align = 0 then
      some (n / align)
    else
      Word.add? (n / align) 1
  Word.mul? count align

/- The size of the frame, without wrapping. -/
def frameSize?
    (t : Locals) : Option UInt32 := do
  let bytes ← t.bytes?
  alignTo? bytes frameAlignment

/- The frame does not wrap when the bytes do not. -/
theorem frameSize?_eq
    (t : Locals) :
    frameSize? t =
      if t.size + 1 < 2 ^ 29 then
        some (frameSize t)
      else
        none := by
  unfold frameSize?
  rw [Locals.bytes?_eq]
  split
  · rename_i hRoom
    have hFrame := toNat_frameSize_of_room t hRoom
    have hDiv := toNat_bytes_div t hRoom
    have hAlign : frameAlignment.toNat = 16 := rfl
    have hOne : (1 : UInt32).toNat = 1 := rfl
    show alignTo? t.bytes frameAlignment = some (frameSize t)
    simp only [alignTo?, bytes_mod_eq_zero_iff t hRoom]
    by_cases hEven : t.size % 2 = 0
    · rw [if_pos hEven]
      show Word.mul? _ _ = _
      rw [Word.mul?, Word.ofNat?_eq_some_iff, hFrame, hDiv,
        hAlign]
      omega
    · have hCount :
          Word.add? (t.bytes / frameAlignment) 1 =
            some (t.bytes / frameAlignment + 1) := by
        rw [Word.add?, Word.ofNat?_eq_some_iff,
          UInt32.toNat_add, hDiv, hOne]
        omega
      rw [if_neg hEven, hCount]
      show Word.mul? _ _ = _
      rw [Word.mul?, Word.ofNat?_eq_some_iff, hFrame,
        UInt32.toNat_add, hDiv, hOne, hAlign]
      omega
  · rfl

end Program

------------------------------------------------------------
-- Capacity
------------------------------------------------------------

/-
  Below the capacity of the arithmetic, nothing wraps: every
  call returns the offset of the place of its name, the
  bytes of the table are eight for each name, and the frame
  is the least that is aligned and holds them. Each name has
  a word of the frame for itself. The offsets are exact for
  one name more than the bytes and the frame, and no further.
-/
theorem frame_is_exact_below_capacity
    (names : List String) :
    let t := Locals.ofNames names
    let frame := Program.frameSize t
    (Locals.ofNames? names = some t ↔ t.size < 2 ^ 29) ∧
    (t.bytes? = some t.bytes ↔ t.size + 1 < 2 ^ 29) ∧
    (Program.frameSize? t = some frame ↔
      t.size + 1 < 2 ^ 29) ∧
    (t.size < 2 ^ 29 →
      ∀ before name after,
        names = before ++ name :: after →
        ((Locals.ofNames before).resolve name).1.bytes.toNat =
          8 * (names.eraseDups.idxOf name + 1)) ∧
    (t.size + 1 < 2 ^ 29 →
      t.bytes.toNat = 8 * t.size ∧
      IsLeast {n | 16 ∣ n ∧ 8 * t.size ≤ n} frame.toNat ∧
      ∀ name o,
        t.offset? name = some o →
        0 < o.bytes.toNat ∧
        o.bytes.toNat ≤ frame.toNat ∧
        ∀ other, t.offset? other = some o → other = name) := by
  intro t frame
  refine ⟨?_, ?_, ?_, ?_, ?_⟩
  · rw [Locals.ofNames?_eq]
    simp only [Option.ite_none_right_eq_some, t, and_true]
  · rw [Locals.bytes?_eq]
    simp only [Option.ite_none_right_eq_some, and_true]
  · rw [Program.frameSize?_eq]
    simp only [Option.ite_none_right_eq_some, frame,
      and_true]
  · intro hSize before name after hCall
    rw [Locals.size_ofNames] at hSize
    exact Locals.toNat_of_call hSize hCall
  · intro hRoom
    have hLeast := Program.isLeast_frameSize_of_room t hRoom
    have hNodup := Locals.nodup_names_ofNames names
    have hSize : t.size < 2 ^ 29 := by omega
    refine ⟨t.toNat_bytes hRoom, hLeast, ?_⟩
    intro name o hOffset
    rcases (Locals.offset?_eq_some_iff hNodup hSize).mp
        hOffset with ⟨i, hName, hBytes⟩
    have hLess : i < t.size :=
      (List.getElem?_eq_some_iff.mp hName).1
    have hHolds : 8 * t.size ≤ frame.toNat := hLeast.1.2
    refine ⟨by omega, by omega, ?_⟩
    intro other hOther
    have hFirst := Locals.nameOf?_of_offset? hSize hOffset
    have hSecond := Locals.nameOf?_of_offset? hSize hOther
    rw [hFirst] at hSecond
    exact (Option.some.inj hSecond).symm

/- Four calls for three names. -/
theorem repeated_name_has_exact_frame :
    let names := ["sum", "i", "sum", "limit"]
    let t := Locals.ofNames names
    t.size + 1 < 2 ^ 29 ∧
    t.bytes.toNat = 8 * t.size ∧
    Program.frameSize? t = some (Program.frameSize t) ∧
    Program.frameSize t = 32 ∧
    t.offset? "limit" = some ⟨24⟩ ∧
    ∀ other, t.offset? other = some ⟨24⟩ → other = "limit" := by
  intro names t
  rcases frame_is_exact_below_capacity names with
    ⟨-, -, hFrame, -, hExact⟩
  have hRoom : t.size + 1 < 2 ^ 29 := by decide
  have hLimit : t.offset? "limit" = some ⟨24⟩ := by decide
  rcases hExact hRoom with ⟨hBytes, -, hWords⟩
  exact ⟨hRoom, hBytes, hFrame.mpr hRoom, by decide, hLimit,
    (hWords "limit" ⟨24⟩ hLimit).2.2⟩

namespace Locals

/- Different names are all kept. -/
theorem names_ofNames_of_nodup
    {names : List String}
    (hNodup : names.Nodup) :
    (ofNames names).names = names := by
  induction names using List.reverseRecOn with
  | nil =>
      rfl
  | append_singleton names name ih =>
      rcases List.nodup_append.mp hNodup with
        ⟨hOthers, -, hApart⟩
      have hNew : name ∉ names := by
        intro hMem
        exact hApart name hMem name
          (List.mem_singleton_self name) rfl
      rw [ofNames_concat, names_resolve, ih hOthers,
        if_neg hNew]

/- The table of the first `n` numbers as names. -/
def numbered
    (n : Nat) : Locals :=
  ofNames ((List.range n).map toString)

theorem names_numbered
    (n : Nat) :
    (numbered n).names = (List.range n).map toString := by
  apply names_ofNames_of_nodup
  apply List.Nodup.map _ List.nodup_range
  intro i j hSame
  exact Literal.toString_injective hSame

theorem size_numbered
    (n : Nat) :
    (numbered n).size = n := by
  rw [size, names_numbered, List.length_map,
    List.length_range]

/- A number is a name at its own place. -/
theorem offset?_numbered
    {n i : Nat}
    (hLess : i < n) :
    (numbered n).offset? (toString i) =
      some (offsetAt i) := by
  have hNodup : (numbered n).names.Nodup :=
    nodup_names_ofNames _
  have hPlace :
      (numbered n).names.idxOf? (toString i) = some i := by
    rw [idxOf?_eq_some_iff hNodup, names_numbered,
      List.getElem?_map, List.getElem?_range hLess]
    rfl
  rw [offset?, hPlace]
  rfl

end Locals

/- The bytes of a table of 2 ^ 29 - 1 names wrap. -/
theorem Program.frameSize_eq_zero
    {t : Locals}
    (hSize : t.size = 2 ^ 29 - 1) :
    frameSize t = 0 := by
  rw [frameSize, Locals.bytes, hSize]
  decide

/-
  The check of the index lets both of these tables through.
  The first has an empty frame for its variables, and in the
  second two variables share a word.
-/
theorem full_tables_wrap :
    let t := Locals.numbered (2 ^ 29 - 1)
    let u := Locals.numbered (2 ^ 29 + 1)
    (t.size < UInt32.size ∧
      t.bytes? = none ∧
      Program.frameSize t = 0 ∧
      ¬ IsLeast {n | 16 ∣ n ∧ 8 * t.size ≤ n}
        (Program.frameSize t).toNat) ∧
    (u.size < UInt32.size ∧
      u.offset? (toString 0) = some ⟨8⟩ ∧
      u.offset? (toString (2 ^ 29)) = some ⟨8⟩ ∧
      toString 0 ≠ toString (2 ^ 29)) := by
  intro t u
  have hWords : UInt32.size = 2 ^ 32 := rfl
  have hSize : t.size = 2 ^ 29 - 1 := Locals.size_numbered _
  have hSize' : u.size = 2 ^ 29 + 1 := Locals.size_numbered _
  have hFrame := Program.frameSize_eq_zero hSize
  refine ⟨⟨by omega, ?_, hFrame, ?_⟩, by omega, ?_, ?_, ?_⟩
  · rw [Locals.bytes?_eq, if_neg (by omega)]
  · rintro ⟨⟨-, hHolds⟩, -⟩
    have hZero : (0 : UInt32).toNat = 0 := rfl
    rw [hFrame, hSize] at hHolds
    omega
  · exact Locals.offset?_numbered (by omega)
  · have hLast := Locals.offset?_numbered
      (Nat.lt_add_one (2 ^ 29))
    rw [hLast]
    decide
  · decide

end WordLang
