import Mathlib.Data.List.Basic
import WordLang.CommandLine.Disk

/-
  This file says what a write to a disk changes.

  A place is a list of names that starts at the root. What
  stands at a place is nothing, a folder, or a file with its
  bytes. A path leads from one place to another through the
  folders of a disk. A write puts a file at the place that
  its path leads to, and leaves all other places as they
  were, so that the path leads there again.

  Key definitions include:
    * `WordLang.Entry.contentAt?`
    * `WordLang.Disk.Leads`
    * `WordLang.Disk.Stores`

  Key theorems include:
    * `WordLang.Entry.contentAt?_put_self`
    * `WordLang.Entry.contentAt?_put_of_ne`
    * `WordLang.Disk.stores_of_write`
    * `WordLang.Disk.read_of_write`
-/

namespace WordLang

------------------------------------------------------------
-- Places
------------------------------------------------------------

/- The bytes of a text are read as that text. -/
theorem textOfBytes_toUTF8
    (text : String) :
    textOfBytes text.toUTF8 = .ok text := by
  have hText : String.fromUTF8? text.toUTF8 = some text :=
    dif_pos text.isValidUTF8
  rw [textOfBytes, hText]

namespace Entry

/- The bytes of a file. A folder has none. -/
def content : Entry → Option ByteArray
| file bytes => some bytes
| folder _ => none

/- What is at a place, if there is anything. -/
def contentAt?
    (e : Entry)
    (place : List String) : Option (Option ByteArray) :=
  (e.at? place).map content

/- The first entry of a folder, or one of the others. -/
theorem lookup_cons_eq_if
    (name first : String)
    (e : Entry)
    (entries : List (String × Entry)) :
    ((first, e) :: entries).lookup name =
      if name = first then
        some e
      else
        entries.lookup name := by
  rw [List.lookup_cons]
  by_cases hFirst : name = first
  · simp [hFirst]
  · rw [beq_eq_false_iff_ne.mpr hFirst, if_neg hFirst]

/- The entries of a folder after one of them is replaced. -/
theorem lookup_assign
    (name other : String)
    (e : Entry)
    (entries : List (String × Entry)) :
    (assign name e entries).lookup other =
      if other = name then
        some e
      else
        entries.lookup other := by
  induction entries with
  | nil =>
      rw [assign, lookup_cons_eq_if]
  | cons entry entries ih =>
      rcases entry with ⟨first, old⟩
      rw [assign, lookup_cons_eq_if]
      by_cases hFirst : first = name
      · subst hFirst
        rw [if_pos rfl, lookup_cons_eq_if]
        by_cases hName : other = first
        · simp [hName]
        · simp [hName]
      · rw [if_neg hFirst, lookup_cons_eq_if, ih]
        by_cases hName : other = first
        · simp [hName, hFirst]
        · simp [hName]

/- What is found inside a folder. -/
theorem at?_folder_cons
    (entries : List (String × Entry))
    (name : String)
    (place : List String) :
    (folder entries).at? (name :: place) =
      (entries.lookup name).bind (·.at? place) := by
  rw [at?]
  cases entries.lookup name <;> rfl

/- What is put at a place is found there. -/
theorem contentAt?_put_self
    (e new : Entry)
    (place : List String) :
    (e.put place new).contentAt? place =
      some new.content := by
  unfold contentAt?
  induction place generalizing e with
  | nil =>
      rfl
  | cons name place ih =>
      cases e with
      | file bytes =>
          rw [put, at?_folder_cons]
          simpa using ih (folder [])
      | folder entries =>
          rw [put, at?_folder_cons, lookup_assign, if_pos rfl]
          exact ih _

/-
  A file that is put into a folder changes nothing at other
  places, unless it replaces a folder.
-/
theorem contentAt?_put_of_ne
    {e : Entry}
    {dir : List String}
    {name : String}
    {entries : List (String × Entry)}
    (hFolder : e.at? dir = some (folder entries))
    (hName : ∀ sub, entries.lookup name ≠ some (folder sub))
    (bytes : ByteArray)
    {place : List String}
    (hOther : place ≠ dir ++ [name]) :
    (e.put (dir ++ [name]) (file bytes)).contentAt? place =
      e.contentAt? place := by
  unfold contentAt?
  induction dir generalizing e place with
  | nil =>
      cases Option.some.inj hFolder
      rw [List.nil_append, put, put]
      cases place with
      | nil =>
          rfl
      | cons first place =>
          rw [at?_folder_cons, at?_folder_cons, lookup_assign]
          by_cases hFirst : first = name
          · subst hFirst
            cases place with
            | nil =>
                exact absurd rfl hOther
            | cons second place =>
                -- Neither the new file nor the old has parts.
                rw [if_pos rfl]
                cases hOld : entries.lookup first with
                | none =>
                    rfl
                | some old =>
                    cases old with
                    | file old =>
                        rfl
                    | folder sub =>
                        exact absurd hOld (hName sub)
          · rw [if_neg hFirst]
  | cons first dir ih =>
      cases e with
      | file old =>
          cases hFolder
      | folder more =>
          rw [at?_folder_cons] at hFolder
          rcases Option.bind_eq_some_iff.mp hFolder with
            ⟨inner, hInner, hDir⟩
          rw [List.cons_append, put, hInner,
            Option.getD_some]
          cases place with
          | nil =>
              rfl
          | cons second place =>
              rw [at?_folder_cons, at?_folder_cons,
                lookup_assign]
              by_cases hSecond : second = first
              · subst hSecond
                rw [if_pos rfl, hInner]
                apply ih hDir
                intro hSame
                exact hOther (by rw [hSame, List.cons_append])
              · rw [if_neg hSecond]

/- The part of a place after its start. -/
theorem at?_append
    (e : Entry)
    (dir place : List String) :
    e.at? (dir ++ place) =
      (e.at? dir).bind (·.at? place) := by
  induction dir generalizing e with
  | nil =>
      rfl
  | cons name dir ih =>
      cases e with
      | file bytes =>
          rfl
      | folder entries =>
          rw [List.cons_append, at?_folder_cons,
            at?_folder_cons, Option.bind_assoc]
          congr 1
          funext inner
          exact ih inner

/- The entries of a folder are the places inside of it. -/
theorem contentAt?_concat
    {e : Entry}
    {dir : List String}
    {entries : List (String × Entry)}
    (hFolder : e.at? dir = some (folder entries))
    (name : String) :
    e.contentAt? (dir ++ [name]) =
      (entries.lookup name).map content := by
  rw [contentAt?, at?_append, hFolder, Option.bind_some,
    at?_folder_cons]
  cases entries.lookup name <;> rfl

end Entry

------------------------------------------------------------
-- Paths
------------------------------------------------------------

namespace Disk

/- A path leads to a place. -/
def Leads
    (d : Disk)
    (path : String)
    (place : List String) : Prop :=
  d.walk (Path.ofString path).absolute
    (Path.ofString path).names = .ok place

/- A step of a path depends on what is at two places. -/
theorem enter_eq
    (d : Disk)
    (place : List String)
    (name : String) :
    d.enter place name =
      match d.root.contentAt? place with
      | none => .error .notFound
      | some (some _) => .error .notFolder
      | some none =>
          if name = "." then
            .ok place
          else if name = ".." then
            .ok place.dropLast
          else if
              (d.root.contentAt? (place ++ [name])).isSome
              then
            .ok (place ++ [name])
          else
            .error .notFound := by
  unfold enter
  cases hEntry : d.root.at? place with
  | none =>
      simp [Entry.contentAt?, hEntry]
  | some e =>
      cases e with
      | file bytes =>
          simp [Entry.contentAt?, hEntry, Entry.content]
      | folder entries =>
          rw [Entry.contentAt?_concat hEntry,
            Option.isSome_map]
          simp [Entry.contentAt?, hEntry, Entry.content]

/-
  A disk that differs from another at one place at most,
  where it has a file with the given text and the other has
  a file or nothing.
-/
structure Stores
    (d d' : Disk)
    (place : List String)
    (text : String) : Prop where
  work : d'.work = d.work
  notFolder : d.root.contentAt? place ≠ some none
  holds :
    d'.root.contentAt? place = some (some text.toUTF8)
  others :
    ∀ other,
      other ≠ place →
      d'.root.contentAt? other = d.root.contentAt? other

namespace Stores

variable {d d' : Disk}
variable {place : List String}
variable {text : String}

/- The steps that a path could take can still be taken. -/
theorem enter_eq_ok
    (hStores : d.Stores d' place text)
    {dir next : List String}
    {name : String}
    (hEnter : d.enter dir name = .ok next) :
    d'.enter dir name = .ok next := by
  rw [enter_eq] at hEnter ⊢
  by_cases hDir : dir = place
  · subst hDir
    have hFolder := hStores.notFolder
    split at hEnter
    · cases hEnter
    · cases hEnter
    · rename_i hContent
      exact absurd hContent hFolder
  · rw [hStores.others dir hDir]
    split at hEnter
    · cases hEnter
    · cases hEnter
    · by_cases hNext : dir ++ [name] = place
      · rw [hNext] at hEnter
        rw [hNext, hStores.holds]
        by_cases hDot : name = "."
        · rw [if_pos hDot] at hEnter ⊢
          exact hEnter
        · rw [if_neg hDot] at hEnter ⊢
          by_cases hDots : name = ".."
          · rw [if_pos hDots] at hEnter ⊢
            exact hEnter
          · rw [if_neg hDots] at hEnter ⊢
            split at hEnter
            · exact hEnter
            · cases hEnter
      · rw [hStores.others _ hNext]
        exact hEnter

/- From its folder there is a step to the file. -/
theorem enter_file
    {dir : List String}
    {name : String}
    (hStores : d.Stores d' (dir ++ [name]) text)
    (hFolder : d.root.contentAt? dir = some none)
    (hDot : name ≠ ".")
    (hDots : name ≠ "..") :
    d'.enter dir name = .ok (dir ++ [name]) := by
  rw [enter_eq, hStores.others dir (by simp), hFolder,
    hStores.holds]
  simp [hDot, hDots]

/- A path that led somewhere leads there again. -/
theorem walk_eq_ok
    (hStores : d.Stores d' place text)
    {absolute : Bool}
    {names : List String}
    {goal : List String}
    (hWalk : d.walk absolute names = .ok goal) :
    d'.walk absolute names = .ok goal := by
  unfold walk at hWalk ⊢
  rw [hStores.work]
  generalize (if absolute then [] else d.work) = start at *
  induction names generalizing start with
  | nil =>
      exact hWalk
  | cons name names ih =>
      rw [List.foldlM_cons] at hWalk ⊢
      cases hEnter : d.enter start name with
      | error e =>
          rw [hEnter] at hWalk
          cases hWalk
      | ok next =>
          rw [hEnter] at hWalk
          rw [hStores.enter_eq_ok hEnter]
          exact ih next hWalk

end Stores

------------------------------------------------------------
-- Writes
------------------------------------------------------------

/-
  What a write does when it succeeds: it puts a file under
  the last name of its path into the folder before it.
-/
theorem write_eq_ok
    {d d' : Disk}
    {path text : String}
    (hWrite : d.write path text = .ok d') :
    ∃ dir name entries,
      (Path.ofString path).names.getLast? = some name ∧
      d.walk (Path.ofString path).absolute
        (Path.ofString path).names.dropLast = .ok dir ∧
      d.root.at? dir = some (.folder entries) ∧
      (Path.ofString path).folderOnly = false ∧
      name ≠ "." ∧
      name ≠ ".." ∧
      (∀ sub, entries.lookup name ≠ some (.folder sub)) ∧
      d' =
        { d with
          root :=
            d.root.put (dir ++ [name])
              (.file text.toUTF8) } := by
  unfold write at hWrite
  cases hLast : (Path.ofString path).names.getLast? with
  | none =>
      simp only [hLast] at hWrite
      cases hWrite
  | some name =>
      cases hWalk :
          d.walk (Path.ofString path).absolute
            (Path.ofString path).names.dropLast with
      | error e =>
          simp only [hLast, hWalk] at hWrite
          cases hWrite
      | ok dir =>
          simp only [hLast, hWalk, bind, Except.bind]
            at hWrite
          split at hWrite
          · cases hWrite
          · cases hWrite
          · rename_i entries hFolder
            split at hWrite
            · cases hWrite
            · rename_i hPlain
              simp only [Bool.or_eq_true, decide_eq_true_eq,
                not_or, Bool.not_eq_true] at hPlain
              split at hWrite
              · cases hWrite
              · rename_i hName
                cases hWrite
                exact ⟨dir, name, entries, rfl, rfl,
                  hFolder, hPlain.1.1, hPlain.1.2, hPlain.2,
                  hName, rfl⟩

/- A write puts its text at the place its path leads to. -/
theorem stores_of_write
    {d d' : Disk}
    {path text : String}
    (hWrite : d.write path text = .ok d') :
    ∃ place,
      d'.Leads path place ∧ d.Stores d' place text := by
  rcases write_eq_ok hWrite with
    ⟨dir, name, entries, hLast, hWalk, hFolder, -, hDot,
      hDots, hName, hDisk⟩
  have hStores : d.Stores d' (dir ++ [name]) text := by
    rw [hDisk]
    refine ⟨rfl, ?_, Entry.contentAt?_put_self _ _ _, ?_⟩
    · rw [Entry.contentAt?_concat hFolder]
      intro hOld
      rcases Option.map_eq_some_iff.mp hOld with
        ⟨old, hLookup, hContent⟩
      cases old with
      | file bytes =>
          cases hContent
      | folder sub =>
          exact hName sub hLookup
    · intro other hOther
      exact Entry.contentAt?_put_of_ne hFolder hName _ hOther
  refine ⟨dir ++ [name], ?_, hStores⟩
  have hNames :
      (Path.ofString path).names =
        (Path.ofString path).names.dropLast ++ [name] :=
    (List.dropLast_append_getLast? name hLast).symm
  have hContent : d.root.contentAt? dir = some none := by
    rw [Entry.contentAt?, hFolder]
    rfl
  have hEnter := hStores.enter_file hContent hDot hDots
  unfold Leads
  rw [hNames, walk, List.foldlM_append, ← walk,
    hStores.walk_eq_ok hWalk]
  show [name].foldlM d'.enter dir = _
  rw [List.foldlM_cons, hEnter]
  rfl

/- What is written to a path is read from it. -/
theorem read_of_write
    {d d' : Disk}
    {path text : String}
    (hWrite : d.write path text = .ok d') :
    d'.read path = .ok text := by
  rcases stores_of_write hWrite with ⟨place, hLeads, hStores⟩
  rcases write_eq_ok hWrite with
    ⟨-, -, -, -, -, -, hPlain, -⟩
  rcases Option.map_eq_some_iff.mp hStores.holds with
    ⟨e, hEntry, hContent⟩
  cases e with
  | folder entries =>
      cases hContent
  | file bytes =>
      cases hContent
      have hBytes : d'.bytes path = .ok text.toUTF8 := by
        unfold bytes
        simp only [hPlain, Bool.false_eq_true, if_false]
        rw [hLeads]
        simp only [bind, Except.bind, hEntry]
        rfl
      rw [read, hBytes]
      exact textOfBytes_toUTF8 text

end Disk

end WordLang
