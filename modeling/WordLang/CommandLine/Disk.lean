/-
  This file models the files a command reads and writes.

  A disk is a tree of folders with a working folder in it.
  A path is walked from the working folder or, when it
  starts with a slash, from the root; one dot stays and two
  dots go up. Only folders can be walked through.

  Key definitions include:
    * `WordLang.FileError`
    * `WordLang.FileError.reason`
    * `WordLang.Path`
    * `WordLang.Entry`
    * `WordLang.Disk`
    * `WordLang.Disk.read`
    * `WordLang.Disk.write`
-/

namespace WordLang

------------------------------------------------------------
-- Errors
------------------------------------------------------------

/- Why a file cannot be read or written. -/
inductive FileError where
  | notFound
  | notFolder
  | isFolder
  | notText
  | other (details : String)
deriving DecidableEq, Repr

namespace FileError

/- The wording of a file error. -/
def reason : FileError → String
| notFound => "No such file or directory (os error 2)"
| notFolder => "Not a directory (os error 20)"
| isFolder => "Is a directory (os error 21)"
| notText => "stream did not contain valid UTF-8"
| other details => details

end FileError

/- The text that some bytes hold, if they are UTF-8. -/
def textOfBytes
    (bytes : ByteArray) : Except FileError String :=
  match String.fromUTF8? bytes with
  | some s => .ok s
  | none => .error .notText

------------------------------------------------------------
-- Paths
------------------------------------------------------------

/-
  A path: whether it starts at the root, the names in it,
  and whether it ends with a slash.
-/
structure Path where
  absolute : Bool
  names : List String
  folderOnly : Bool
deriving DecidableEq, Repr

namespace Path

/- The parts of a text between slashes. -/
def split : List Char → List (List Char)
| [] => [[]]
| c :: cs =>
    match split cs with
    | [] => [[c]]
    | part :: parts =>
        if c = '/' then
          [] :: part :: parts
        else
          (c :: part) :: parts

/- The path that a text writes. -/
def ofString
    (s : String) : Path :=
  let parts := split s.toList
  { absolute := s.toList.head? = some '/'
    names :=
      (parts.filter (fun part => !part.isEmpty)).map
        String.ofList
    folderOnly := s.toList.getLast? = some '/' }

end Path

------------------------------------------------------------
-- Disks
------------------------------------------------------------

/- A file with its bytes, or a folder with what is in it. -/
inductive Entry where
  | file (bytes : ByteArray)
  | folder (entries : List (String × Entry))

namespace Entry

/- The entry at the end of a list of names. -/
def at? :
    Entry →
    List String →
    Option Entry
| e, [] => some e
| file _, _ :: _ => none
| folder entries, name :: names =>
    match entries.lookup name with
    | some e => e.at? names
    | none => none

/- Replace or add one entry of a folder. -/
def assign
    (name : String)
    (e : Entry) :
    List (String × Entry) → List (String × Entry)
| [] => [(name, e)]
| (other, old) :: rest =>
    if other = name then
      (name, e) :: rest
    else
      (other, old) :: assign name e rest

/-
  Put an entry at the end of a list of names. Folders that
  are missing on the way are made.
-/
def put :
    Entry →
    List String →
    Entry →
    Entry
| _, [], e => e
| file _, name :: names, e =>
    folder [(name, put (folder []) names e)]
| folder entries, name :: names, e =>
    let old := (entries.lookup name).getD (folder [])
    folder (assign name (put old names e) entries)

end Entry

/- A tree of folders, and where its working folder is. -/
structure Disk where
  root : Entry
  work : List String

namespace Disk

/-
  A disk with nothing but a working folder. The folder has a
  name that no path can write.
-/
def ofWork
    (work : Entry) : Disk :=
  ⟨.folder [("", work)], [""]⟩

/- Take one step of a path. -/
def enter
    (d : Disk)
    (place : List String)
    (name : String) : Except FileError (List String) :=
  match d.root.at? place with
  | none => .error .notFound
  | some (.file _) => .error .notFolder
  | some (.folder entries) =>
      if name = "." then
        .ok place
      else if name = ".." then
        .ok place.dropLast
      else if (entries.lookup name).isSome then
        .ok (place ++ [name])
      else
        .error .notFound

/- Walk a path from where it starts. -/
def walk
    (d : Disk)
    (absolute : Bool)
    (names : List String) :
    Except FileError (List String) :=
  names.foldlM d.enter (if absolute then [] else d.work)

/- The bytes of the file at a path. -/
def bytes
    (d : Disk)
    (path : String) : Except FileError ByteArray := do
  let p := Path.ofString path
  let names := if p.folderOnly then p.names ++ ["."] else p.names
  let place ← d.walk p.absolute names
  match d.root.at? place with
  | some (.file bytes) => return bytes
  | some (.folder _) => throw .isFolder
  | none => throw .notFound

/- The text of the file at a path. -/
def read
    (d : Disk)
    (path : String) : Except FileError String := do
  textOfBytes (← d.bytes path)

/-
  Make the file at a path hold a text. Its folder has to be
  there, and a folder is not replaced.
-/
def write
    (d : Disk)
    (path text : String) : Except FileError Disk := do
  let p := Path.ofString path
  match p.names.getLast? with
  | none => throw .isFolder
  | some name =>
      let place ← d.walk p.absolute p.names.dropLast
      match d.root.at? place with
      | none => throw .notFound
      | some (.file _) => throw .notFolder
      | some (.folder entries) =>
          if p.folderOnly || name = "." || name = ".." then
            throw .isFolder
          else
            match entries.lookup name with
            | some (.folder _) => throw .isFolder
            | _ =>
                return { d with
                  root := d.root.put (place ++ [name])
                    (.file text.toUTF8) }

end Disk

end WordLang
