import SchemeMachine.Host.Basic

/-!
# File trees

A file tree is a set of places that hold files or directories.  A place is the row of names on the
way to it from the root, which is always a directory.  Every name on the way but the last must be
that of a directory.
-/

namespace SchemeMachine

/-- The names on the way from the root. -/
abbrev Place := List String

/-- What a place holds. -/
inductive FileEntry where
  | file (content : ByteArray)
  | directory

/-- Files and directories by their places. -/
structure FileTree where
  entries : List (Place × FileEntry)

namespace FileTree

/-- Only the root. -/
def empty : FileTree := ⟨[]⟩

/-- What a place holds. -/
def at? (t : FileTree) (place : Place) : Option FileEntry :=
  if place.isEmpty then some .directory else t.entries.lookup place

/-- The tree with something else at a place. -/
def put (t : FileTree) (place : Place) (entry : FileEntry) : FileTree :=
  ⟨t.entries.filter (·.1 != place) ++ [(place, entry)]⟩

/-- Goes on from a directory by names; what the last of them leads to may be missing. -/
def walk (t : FileTree) (place : Place) : List String → Except FileError Place
  | [] => .ok place
  | name :: rest =>
    match t.at? place with
    | none => .error .notFound
    | some (.file _) => .error .notADirectory
    | some .directory =>
      if Path.isIdle name then walk t place rest
      else if name == ".." then walk t place.dropLast rest
      else walk t (place ++ [name]) rest

/-- Where a path begins, seen from the directory `base`. -/
def origin (base : Place) (p : Path) : Place :=
  if p.isAbsolute then [] else base

/-- The place that a path leads to from the directory `base`. -/
def resolve (t : FileTree) (base : Place) (p : Path) : Except FileError Place :=
  if p.isEmpty then .error .notFound else t.walk (origin base p) p.pieces

/-- What a path leads to. -/
def find (t : FileTree) (base : Place) (p : Path) : Except FileError FileEntry := do
  match t.at? (← t.resolve base p) with
  | some entry => return entry
  | none => throw .notFound

/-- Whether a path leads to a directory. -/
def isDirectory (t : FileTree) (base : Place) (p : Path) : Bool :=
  match t.find base p with
  | .ok .directory => true
  | _ => false

/-- Whether a path leads to a file. -/
def isFile (t : FileTree) (base : Place) (p : Path) : Bool :=
  match t.find base p with
  | .ok (.file _) => true
  | _ => false

/-- The text of a file. -/
def readText (t : FileTree) (base : Place) (p : Path) : Except FileError String := do
  match ← t.find base p with
  | .directory => throw .isADirectory
  | .file content =>
    match String.fromUTF8? content with
    | some text => return text
    | none => throw .invalidText

/-- Writes a file, which need not exist yet.  A slash at the end of a path makes it the path of a
directory, provided that what comes before leads to one. -/
def writeText (t : FileTree) (base : Place) (p : Path) (text : String) :
    Except FileError FileTree := do
  if p.toList.getLast? == some '/' then
    let names := (p.pieces.reverse.dropWhile String.isEmpty).reverse
    let _ ← t.walk (origin base p) (names.dropLast ++ ["."])
    throw .isADirectory
  let place ← t.resolve base p
  match t.at? place with
  | some .directory => throw .isADirectory
  | _ => return t.put place (.file text.toUTF8)

/-- Makes one directory. -/
def makeDirectory (t : FileTree) (base : Place) (p : Path) : Except FileError FileTree := do
  let place ← t.walk (origin base p) (Path.trimIdle p.pieces)
  match t.at? place with
  | some _ => throw .alreadyExists
  | none => return t.put place .directory

/-- The tree as it is if the path leads to a directory, else the error. -/
def orDirectory (t : FileTree) (base : Place) (p : Path) (e : FileError) :
    Except FileError FileTree :=
  if t.isDirectory base p then .ok t else .error e

/-- Makes a directory after the missing ones above it, of which the paths are given, nearest
first. -/
def makeAll (t : FileTree) (base : Place) : List Path → Except FileError FileTree
  | [] => .error .notFound
  | p :: above =>
    if p.isEmpty then .ok t
    else
      match t.makeDirectory base p with
      | .ok t => .ok t
      | .error .notFound =>
        match t.makeAll base above with
        | .error e => .error e
        | .ok t =>
          match t.makeDirectory base p with
          | .ok t => .ok t
          | .error e => t.orDirectory base p e
      | .error e => t.orDirectory base p e

/-- Makes a directory and the missing ones above it. -/
def makeDirectories (t : FileTree) (base : Place) (p : Path) : Except FileError FileTree :=
  t.makeAll base p.ancestors

/-- The places of directories. -/
def directories (t : FileTree) : List Place :=
  t.entries.filterMap fun (place, entry) =>
    match entry with
    | .directory => some place
    | .file _ => none

/-- The places of files, with their contents. -/
def files (t : FileTree) : List (Place × ByteArray) :=
  t.entries.filterMap fun (place, entry) =>
    match entry with
    | .directory => none
    | .file content => some (place, content)

end FileTree
end SchemeMachine
