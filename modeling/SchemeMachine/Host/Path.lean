/-!
# Paths

Paths are texts in which slashes separate names.  Empty names and the name `.` stand for nothing,
except for a `.` in front of a relative path.
-/

namespace SchemeMachine

/-- A path. -/
abbrev Path := String

namespace Path

/-- Whether a path begins at the root. -/
def isAbsolute (p : Path) : Bool :=
  p.toList.head? == some '/'

/-- The text between slashes. -/
def pieces (p : Path) : List String :=
  (splitSlash p.toList).map String.ofList
where
  /-- The characters between slashes. -/
  splitSlash : List Char → List (List Char)
    | [] => [[]]
    | c :: rest =>
      if c = '/' then [] :: splitSlash rest
      else
        match splitSlash rest with
        | piece :: more => (c :: piece) :: more
        | [] => [[c]]

/-- A path seen from another; an absolute path is the same from everywhere. -/
def join (base rest : Path) : Path :=
  if rest.isAbsolute then rest
  else if base.isEmpty || base.toList.getLast? == some '/' then base ++ rest
  else base ++ "/" ++ rest

/-- Whether a piece that is not the first stands for nothing. -/
def isIdle (piece : String) : Bool :=
  piece.isEmpty || piece == "."

/-- The pieces without those at the end that stand for nothing; the first piece always stays. -/
def trimIdle : List String → List String
  | [] => []
  | first :: rest => first :: (rest.reverse.dropWhile isIdle).reverse

/-- The path without its last name; the root and the empty path have none. -/
def parent? (p : Path) : Option Path :=
  match trimIdle p.pieces with
  | [] => none
  | [only] => if only.isEmpty then none else some ""
  | first :: rest =>
    match trimIdle (first :: rest.dropLast) with
    | [""] => some "/"
    | kept => some ("/".intercalate kept)

/-- The path, its parent, the parent of that and so on, at most `bound` of them. -/
def ancestorsWithin : Nat → Path → List Path
  | 0, _ => []
  | bound + 1, p =>
    match parent? p with
    | none => [p]
    | some parent => p :: ancestorsWithin bound parent

/-- The path and everything above it.  Each parent is shorter than the path before it. -/
def ancestors (p : Path) : List Path :=
  ancestorsWithin (p.length + 1) p

example : parent? "/a/b/" = some "/a" := by decide +kernel
example : parent? "/a" = some "/" := by decide +kernel
example : parent? "/" = none := by decide +kernel
example : parent? "a" = some "" := by decide +kernel

end Path
end SchemeMachine
