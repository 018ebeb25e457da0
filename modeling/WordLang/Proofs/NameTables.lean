import WordLang.Proofs.Concatenation

/-
  This file says what a table of variables holds.

  A table that was built by resolving names has each of them
  once, in the order of first use. In a table that is not
  too large, finding the offset of a name and finding the
  name at an offset undo each other.

  A table may also be kept with an index, which finds the
  offset of a name without a search. Names are then looked
  up in the index, and offsets in the list of names. Both
  are written by the same step and stay in step, so the
  table answers as the one without an index does.

  Key definitions include:
    * `WordLang.IndexedLocals`
    * `WordLang.IndexedLocals.resolve`
    * `WordLang.IndexedLocals.InStep`
    * `WordLang.Locals.Answers`
    * `WordLang.Locals.IsLeftBy`

  Key theorems include:
    * `WordLang.Locals.offset?_eq_some_iff`
    * `WordLang.Locals.nameOf?_eq_some_iff`
    * `WordLang.IndexedLocals.InStep.resolve`
    * `WordLang.IndexedLocals.InStep.answers_eq`
    * `WordLang.Locals.calls_describe_one_bijection`
-/

namespace WordLang

------------------------------------------------------------
-- Names and Offsets
------------------------------------------------------------

namespace Locals

/- Later names do not change the offsets of earlier ones. -/
theorem extends_ofNames
    (names more : List String) :
    (ofNames names).Extends (ofNames (names ++ more)) := by
  induction more using List.reverseRecOn with
  | nil =>
      rw [List.append_nil]
      exact Extends.refl _
  | append_singleton more name ih =>
      rw [← List.append_assoc, ofNames_concat]
      exact ih.trans (extends_resolve _ name).1

/- Resolving a name gives an offset to this name only. -/
theorem offset?_resolve
    (t : Locals)
    (name other : String) :
    (t.resolve name).2.offset? other =
      if name = other then
        some (t.resolve name).1
      else
        t.offset? other := by
  rcases t.extends_resolve name with ⟨hExtends, hResolved⟩
  by_cases hSame : name = other
  · rw [if_pos hSame, ← hSame, hResolved]
  · rw [if_neg hSame]
    cases hOffset : t.offset? other with
    | some o =>
        exact hExtends.offset? hOffset
    | none =>
        have hAbsent : other ∉ t.names := by
          simpa [offset?] using hOffset
        have hStill : other ∉ (t.resolve name).2.names := by
          rw [names_resolve]
          split
          · exact hAbsent
          · simpa [hAbsent] using Ne.symm hSame
        simpa [offset?] using hStill

variable {t : Locals}
variable {name : String}
variable {o : Offset}

/- An offset that does not wrap is known by its bytes. -/
theorem eq_offsetAt_iff
    {index : Nat}
    (hIndex : index + 1 < 2 ^ 29) :
    offsetAt index = o ↔
      o.bytes.toNat = 8 * (index + 1) := by
  rw [← toNat_offsetAt hIndex, UInt32.toNat_inj]
  constructor
  · rintro rfl
    rfl
  · intro hBytes
    cases o
    exact congrArg Offset.mk hBytes.symm

/- In a table without repetitions a name has one place. -/
theorem idxOf?_eq_some_iff
    (hNodup : t.names.Nodup)
    {i : Nat} :
    t.names.idxOf? name = some i ↔
      t.names[i]? = some name := by
  constructor
  · intro hIndex
    rcases List.idxOf?_eq_some_iff.mp hIndex with
      ⟨hLess, hName, -⟩
    rw [List.getElem?_eq_getElem hLess]
    exact congrArg some hName
  · intro hName
    rcases List.getElem?_eq_some_iff.mp hName with
      ⟨hLess, rfl⟩
    apply List.idxOf?_eq_some_iff.mpr
    refine ⟨hLess, rfl, ?_⟩
    intro j hj hSame
    have hIndex := (List.Nodup.getElem_inj_iff hNodup).mp
      hSame
    omega

/- The offset of a name tells its place in the table. -/
theorem offset?_eq_some_iff
    (hNodup : t.names.Nodup)
    (hSize : t.size < 2 ^ 29) :
    t.offset? name = some o ↔
      ∃ i,
        t.names[i]? = some name ∧
        o.bytes.toNat = 8 * (i + 1) := by
  rw [offset?, Option.map_eq_some_iff]
  apply exists_congr
  intro i
  rw [idxOf?_eq_some_iff hNodup]
  apply and_congr_right
  intro hName
  have hLess : i < t.size :=
    (List.getElem?_eq_some_iff.mp hName).1
  exact eq_offsetAt_iff (by omega)

/- So does the name at an offset. -/
theorem nameOf?_eq_some_iff :
    t.nameOf? o = some name ↔
      ∃ i,
        t.names[i]? = some name ∧
        o.bytes.toNat = 8 * (i + 1) := by
  rw [nameOf?_eq]
  constructor
  · intro hName
    split at hName
    · rename_i hWord
      exact ⟨o.bytes.toNat / 8 - 1, hName, by omega⟩
    · cases hName
  · rintro ⟨i, hName, hBytes⟩
    have hPlace : o.bytes.toNat / 8 - 1 = i := by omega
    rw [if_pos (by omega), hPlace, hName]

end Locals

------------------------------------------------------------
-- Tables With an Index
------------------------------------------------------------

/-
  A table with an index. The names are in order of use, and
  the index has the offset of each.
-/
structure IndexedLocals where
  slots : Std.HashMap String Offset
  names : Array String

namespace IndexedLocals

/- The table without variables. -/
def empty : IndexedLocals :=
  ⟨∅, #[]⟩

/- The number of variables. -/
def size
    (t : IndexedLocals) : Nat :=
  t.names.size

/- Whether there are no variables. -/
def isEmpty
    (t : IndexedLocals) : Bool :=
  t.slots.isEmpty && t.names.isEmpty

/-
  The offset of a name, and the table that has it. A name
  that is not in the index takes the next free word, and is
  written to the list of names and to the index.
-/
def resolve
    (t : IndexedLocals)
    (name : String) : Offset × IndexedLocals :=
  match t.slots[name]? with
  | some offset => (offset, t)
  | none =>
      let offset := Locals.offsetAt t.size
      (offset,
        { slots := t.slots.insert name offset
          names := t.names.push name })

/- The table that results from resolving some names. -/
def ofNames
    (names : List String) : IndexedLocals :=
  names.foldl (fun t name => (t.resolve name).2) empty

/- The name of the variable at an offset. -/
def nameOf?
    (t : IndexedLocals)
    (o : Offset) : Option String :=
  if o.bytes % Offset.wordSize = 0 ∧
      Offset.wordSize ≤ o.bytes then
    t.names[(o.bytes / Offset.wordSize).toNat - 1]?
  else
    none

/- Whether an offset belongs to a variable. -/
def contains
    (t : IndexedLocals)
    (o : Offset) : Bool :=
  (t.nameOf? o).isSome

/- The variables with their offsets, in order of use. -/
def entries
    (t : IndexedLocals) : List (String × Offset) :=
  t.names.toList.zipIdx.map
    (fun (name, index) => (name, Locals.offsetAt index))

/- The number of bytes that all variables take. -/
def bytes
    (t : IndexedLocals) : UInt32 :=
  (Locals.offsetAt t.size).bytes - Offset.wordSize

/- Whether two tables are the same, by their names only. -/
def same
    (t u : IndexedLocals) : Bool :=
  t.names == u.names

/- The table without its index. -/
def withoutIndex
    (t : IndexedLocals) : Locals :=
  ⟨t.names.toList⟩

end IndexedLocals

------------------------------------------------------------
-- Answers
------------------------------------------------------------

/- What a table answers to everything that can be asked. -/
structure Locals.Answers where
  resolve : String → Offset
  nameOf? : Offset → Option String
  contains : Offset → Bool
  entries : List (String × Offset)
  size : Nat
  bytes : UInt32
  isEmpty : Bool

/- The answers of a table. -/
def Locals.answers
    (t : Locals) : Answers where
  resolve name := (t.resolve name).1
  nameOf? := t.nameOf?
  contains := t.contains
  entries := t.entries
  size := t.size
  bytes := t.bytes
  isEmpty := t.isEmpty

namespace IndexedLocals

/- The answers of a table with an index. -/
def answers
    (t : IndexedLocals) : Locals.Answers where
  resolve name := (t.resolve name).1
  nameOf? := t.nameOf?
  contains := t.contains
  entries := t.entries
  size := t.size
  bytes := t.bytes
  isEmpty := t.isEmpty

/- The index has the offsets that the names give. -/
def InStep
    (t : IndexedLocals) : Prop :=
  ∀ name, t.slots[name]? = t.withoutIndex.offset? name

theorem inStep_empty : empty.InStep := by
  intro name
  rw [empty, Std.HashMap.getElem?_empty]
  rfl

namespace InStep

variable {t : IndexedLocals}

/- Resolving a name does the same with and without index. -/
theorem resolve_eq
    (hStep : t.InStep)
    (name : String) :
    (t.resolve name).1 = (t.withoutIndex.resolve name).1 ∧
      (t.resolve name).2.withoutIndex =
        (t.withoutIndex.resolve name).2 := by
  have hSlot := hStep name
  unfold IndexedLocals.resolve Locals.resolve
  rw [hSlot]
  cases hOffset : t.withoutIndex.offset? name with
  | some o =>
      exact ⟨rfl, rfl⟩
  | none =>
      simp [withoutIndex, Locals.size, size]

/- Resolving a name keeps the index in step. -/
theorem resolve
    (hStep : t.InStep)
    (name : String) :
    (t.resolve name).2.InStep := by
  intro other
  rcases hStep.resolve_eq name with ⟨hOffset, hTable⟩
  rw [hTable, Locals.offset?_resolve, ← hOffset]
  unfold IndexedLocals.resolve
  cases hFound : t.slots[name]? with
  | some o =>
      simp only
      split
      · rename_i hSame
        rw [← hSame]
        exact hFound
      · exact hStep other
  | none =>
      simp only [Std.HashMap.getElem?_insert, beq_iff_eq]
      split
      · rfl
      · exact hStep other

/- No name is in the index of a table without names. -/
theorem isEmpty_eq
    (hStep : t.InStep) :
    t.isEmpty = t.withoutIndex.isEmpty := by
  have hList :
      t.withoutIndex.isEmpty = t.names.isEmpty := by
    simp [Locals.isEmpty, withoutIndex]
  rw [hList, IndexedLocals.isEmpty]
  cases hNames : t.names.isEmpty with
  | false =>
      rw [Bool.and_false]
  | true =>
      rw [Bool.and_true,
        Std.HashMap.isEmpty_iff_forall_not_mem]
      intro name hMem
      have hSlot := hStep name
      have hNone : t.names = #[] := by
        simpa using hNames
      rw [withoutIndex, hNone,
        Std.HashMap.getElem?_eq_some_getElem hMem] at hSlot
      cases hSlot

/- With an index, a table answers as it does without. -/
theorem answers_eq
    (hStep : t.InStep) :
    t.answers = t.withoutIndex.answers := by
  have hResolve (name : String) :
      (t.resolve name).1 =
        (t.withoutIndex.resolve name).1 :=
    (hStep.resolve_eq name).1
  have hName : t.nameOf? = t.withoutIndex.nameOf? := by
    funext o
    simp [nameOf?, Locals.nameOf?, withoutIndex]
  have hContains :
      t.contains = t.withoutIndex.contains := by
    funext o
    rw [contains, Locals.contains, hName]
  have hSize : t.size = t.withoutIndex.size := by
    simp [size, Locals.size, withoutIndex]
  have hBytes : t.bytes = t.withoutIndex.bytes := by
    rw [bytes, Locals.bytes, hSize]
  have hEntries : t.entries = t.withoutIndex.entries := rfl
  simp only [answers, Locals.answers, hResolve, hName,
    hContains, hEntries, hSize, hBytes, hStep.isEmpty_eq]

end InStep

/-
  Names that are resolved one after another leave the same
  table with and without an index.
-/
theorem ofNames_inStep
    (names : List String) :
    (ofNames names).InStep ∧
      (ofNames names).withoutIndex =
        Locals.ofNames names := by
  induction names using List.reverseRecOn with
  | nil =>
      exact ⟨inStep_empty, rfl⟩
  | append_singleton names name ih =>
      rcases ih with ⟨hStep, hTable⟩
      rw [Locals.ofNames_concat, ofNames, List.foldl_append]
      refine ⟨hStep.resolve name, ?_⟩
      rw [← hTable]
      exact (hStep.resolve_eq name).2

end IndexedLocals

------------------------------------------------------------
-- Sequences of Calls
------------------------------------------------------------

namespace Locals

/-
  What is left when names were resolved one after another in
  a new table, without an index and with one.

  The list of names and the index describe one bijection, of
  the distinct names in order of first use and the offsets
  8, 16, 24 and so on. A name gets its offset from the first
  call, every further call returns it, and no later call
  changes it.
-/
structure IsLeftBy
    (calls : List String)
    (t : Locals)
    (u : IndexedLocals) : Prop where
  names : t.names = calls.eraseDups
  list : u.names.toList = calls.eraseDups
  distinct : calls.eraseDups.Nodup
  index :
    ∀ name o,
      u.slots[name]? = some o ↔
        ∃ i,
          calls.eraseDups[i]? = some name ∧
          o.bytes.toNat = 8 * (i + 1)
  inverse :
    ∀ name o,
      u.slots[name]? = some o ↔ u.nameOf? o = some name
  answers :
    ∀ before after,
      calls = before ++ after →
      (IndexedLocals.ofNames before).answers =
        (ofNames before).answers
  returned :
    ∀ before name after,
      calls = before ++ name :: after →
      ((ofNames before).resolve name).1.bytes.toNat =
        8 * (calls.eraseDups.idxOf name + 1)
  kept :
    ∀ before after,
      calls = before ++ after →
      ∀ name o,
        (ofNames before).offset? name = some o →
        t.offset? name = some o
  found :
    ∀ before name after,
      calls = before ++ name :: after →
      let call := (ofNames before).resolve name
      call.2.nameOf? call.1 = some name ∧
        t.nameOf? call.1 = some name
  offsets :
    ∀ o,
      t.contains o = true ↔
        ∃ i, i < t.size ∧ o.bytes.toNat = 8 * (i + 1)
  named :
    ∀ o,
      (∃ name, t.nameOf? o = some name) ↔
        ∃ i, i < t.size ∧ o.bytes.toNat = 8 * (i + 1)
  bytes : t.bytes.toNat = 8 * t.size
  isEmpty : t.isEmpty = true ↔ t.size = 0

section Calls

variable {calls before after : List String}
variable {name : String}

/- The table after all calls has what each one returned. -/
theorem offset?_of_call
    (hCall : calls = before ++ name :: after) :
    (ofNames calls).offset? name =
      some ((ofNames before).resolve name).1 := by
  have hExtends := extends_ofNames (before ++ [name]) after
  rw [← List.append_cons, ← hCall,
    ofNames_concat] at hExtends
  exact hExtends.offset?
    ((ofNames before).extends_resolve name).2

theorem size_ofNames
    (names : List String) :
    (ofNames names).size = names.eraseDups.length := by
  rw [size, names_ofNames]

/- A name is at the offset of the place it came to. -/
theorem toNat_of_call
    (hSize : calls.eraseDups.length < 2 ^ 29)
    (hCall : calls = before ++ name :: after) :
    ((ofNames before).resolve name).1.bytes.toNat =
      8 * (calls.eraseDups.idxOf name + 1) := by
  have hNodup := nodup_names_ofNames calls
  rw [← size_ofNames] at hSize
  rcases (offset?_eq_some_iff hNodup hSize).mp
      (offset?_of_call hCall) with
    ⟨i, hName, hBytes⟩
  rw [names_ofNames] at hName hNodup
  rcases List.getElem?_eq_some_iff.mp hName with
    ⟨hLess, rfl⟩
  rw [hBytes, hNodup.idxOf_getElem i hLess]

/- A name is found at the offset that a call returned. -/
theorem nameOf?_of_call
    (hSize : calls.eraseDups.length < 2 ^ 29)
    (hCall : calls = before ++ name :: after) :
    (ofNames calls).nameOf?
      ((ofNames before).resolve name).1 = some name := by
  rw [← size_ofNames] at hSize
  exact nameOf?_of_offset? hSize (offset?_of_call hCall)

end Calls

/- What calls leave behind, with and without an index. -/
theorem isLeftBy_calls
    {calls : List String}
    (hSize : calls.eraseDups.length < 2 ^ 29 - 1) :
    IsLeftBy calls (ofNames calls)
      (IndexedLocals.ofNames calls) := by
  have hNames := names_ofNames calls
  have hNodup := nodup_names_ofNames calls
  have hFits : (ofNames calls).size + 1 < 2 ^ 29 := by
    rw [size_ofNames]
    omega
  rcases IndexedLocals.ofNames_inStep calls with
    ⟨hStep, hTable⟩
  have hIndex (name : String) (o : Offset) :
      (IndexedLocals.ofNames calls).slots[name]? = some o ↔
        ∃ i,
          (ofNames calls).names[i]? = some name ∧
          o.bytes.toNat = 8 * (i + 1) := by
    rw [hStep name, hTable]
    exact offset?_eq_some_iff hNodup (by omega)
  have hLookup :
      (IndexedLocals.ofNames calls).nameOf? =
        (ofNames calls).nameOf? := by
    rw [← hTable]
    exact congrArg Answers.nameOf? hStep.answers_eq
  refine
    { names := hNames
      list := ?_
      distinct := by rwa [← hNames]
      index := by rwa [← hNames]
      inverse := ?_
      answers := ?_
      returned := ?_
      kept := ?_
      found := ?_
      offsets := contains_iff_exists _
      named := ?_
      bytes := toNat_bytes _ hFits
      isEmpty := by simp [isEmpty, size] }
  · rw [← hNames, ← hTable]
    rfl
  · intro name o
    rw [hIndex, hLookup, nameOf?_eq_some_iff]
  · intro before after _
    rcases IndexedLocals.ofNames_inStep before with
      ⟨hBefore, hSame⟩
    rw [hBefore.answers_eq, hSame]
  · intro before name after hCall
    exact toNat_of_call (by omega) hCall
  · rintro before after rfl name o hOffset
    exact (extends_ofNames before after).offset? hOffset
  · intro before name after hCall
    refine ⟨?_, nameOf?_of_call (by omega) hCall⟩
    -- The call itself leaves a table that is not larger.
    have hShorter :
        (ofNames (before ++ [name])).size ≤
          (ofNames calls).size := by
      have hMore := extends_ofNames (before ++ [name]) after
      rw [← List.append_cons, ← hCall] at hMore
      exact hMore.length_le
    rw [size_ofNames] at hShorter
    rw [← ofNames_concat]
    exact nameOf?_of_call (by omega) rfl
  · intro o
    rw [← contains_iff_exists, contains,
      Option.isSome_iff_exists]

/-
  Two tables are equal if their calls have the same distinct
  names in the order of first use. With an index, equality
  is decided by the names alone, and then all answers are
  the same.
-/
theorem ofNames_eq_iff
    (calls calls' : List String) :
    (ofNames calls = ofNames calls' ↔
      calls.eraseDups = calls'.eraseDups) ∧
    ((IndexedLocals.ofNames calls).same
        (IndexedLocals.ofNames calls') = true ↔
      calls.eraseDups = calls'.eraseDups) := by
  rw [← names_ofNames, ← names_ofNames]
  have hTables :
      ofNames calls = ofNames calls' ↔
        (ofNames calls).names = (ofNames calls').names := by
    constructor
    · exact congrArg names
    · intro hNames
      cases hTable : ofNames calls
      cases hTable' : ofNames calls'
      rw [hTable, hTable'] at hNames
      exact congrArg Locals.mk hNames
  refine ⟨hTables, ?_⟩
  rw [IndexedLocals.same, beq_iff_eq,
    ← Array.toList_inj,
    ← (IndexedLocals.ofNames_inStep calls).2,
    ← (IndexedLocals.ofNames_inStep calls').2]
  rfl

/-
  The index and the list of names of a table describe the
  same bijection after every sequence of calls, and tables
  with the same names have the same answers.
-/
theorem calls_describe_one_bijection
    {calls : List String}
    (hSize : calls.eraseDups.length < 2 ^ 29 - 1) :
    IsLeftBy calls (ofNames calls)
      (IndexedLocals.ofNames calls) ∧
    ∀ calls',
      let t := ofNames calls
      let t' := ofNames calls'
      let u := IndexedLocals.ofNames calls
      let u' := IndexedLocals.ofNames calls'
      (t = t' ↔ calls.eraseDups = calls'.eraseDups) ∧
      (u.same u' = true ↔
        calls.eraseDups = calls'.eraseDups) ∧
      (u.same u' = true →
        u.answers = u'.answers ∧
        ∀ name : String,
          u.slots[name]? = u'.slots[name]?) := by
  refine ⟨isLeftBy_calls hSize, ?_⟩
  intro calls' t t' u u'
  rcases ofNames_eq_iff calls calls' with ⟨hTables, hSame⟩
  refine ⟨hTables, hSame, ?_⟩
  intro hEqual
  have hTable : t = t' := hTables.mpr (hSame.mp hEqual)
  rcases IndexedLocals.ofNames_inStep calls with
    ⟨hStep, hView⟩
  rcases IndexedLocals.ofNames_inStep calls' with
    ⟨hStep', hView'⟩
  have hViews : u.withoutIndex = u'.withoutIndex :=
    hView.trans (hTable.trans hView'.symm)
  constructor
  · rw [hStep.answers_eq, hStep'.answers_eq, hViews]
  · intro name
    rw [hStep name, hStep' name, hViews]

/-
  Two names that are resolved again after a third, and the
  same names with other repetitions.
-/
theorem repeated_names_describe_one_bijection :
    let calls := ["foo", "bar", "baz", "foo", "bar"]
    let calls' := ["foo", "foo", "bar", "foo", "baz"]
    calls.eraseDups.length < 2 ^ 29 - 1 ∧
    IsLeftBy calls (ofNames calls)
      (IndexedLocals.ofNames calls) ∧
    (IndexedLocals.ofNames calls).same
      (IndexedLocals.ofNames calls') = true ∧
    (IndexedLocals.ofNames calls).answers =
      (IndexedLocals.ofNames calls').answers := by
  intro calls calls'
  have hSize : calls.eraseDups.length < 2 ^ 29 - 1 := by
    decide
  have hNames : calls.eraseDups = calls'.eraseDups := by
    decide
  rcases calls_describe_one_bijection hSize with
    ⟨hLeft, hOthers⟩
  rcases hOthers calls' with ⟨-, hSame, hAnswers⟩
  have hEqual := hSame.mpr hNames
  exact ⟨hSize, hLeft, hEqual, (hAnswers hEqual).1⟩

end Locals

end WordLang
