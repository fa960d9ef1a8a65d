/-! Paths in words: names with slashes between them. An empty name and a single dot mean the place
itself, two dots the directory above. -/

namespace FormCompiler.Path

def parts (path : String) : List String := path.splitOn "/"

def ofParts (names : List String) : String := "/".intercalate names

def isAbsolute (path : String) : Bool := path.startsWith "/"

/-- Names that lead nowhere else. -/
def isIdle (name : String) : Bool := name = "" || name = "."

/-- Drops idle names from the end of a path. Its parts are given from the last to the first, and the
first is kept. -/
def dropIdle : List String → List String
  | name :: above :: rest => if isIdle name then dropIdle (above :: rest) else name :: above :: rest
  | names => names

/-- The path without its last name. It is empty if nothing stands before that name. -/
def parent (path : String) : String :=
  match dropIdle (parts path).reverse with
  | _ :: above@(_ :: _) =>
    match dropIdle above with
    | [""] => "/"
    | names => ofParts names.reverse
  | _ => ""

/-- At most so many of a path's ancestors, from the path itself on. -/
def ancestorsWithin : Nat → String → List String
  | 0, _ => []
  | count + 1, path => if path = "" then [] else path :: ancestorsWithin count (parent path)

/-- A path, its parent, the parent of that, and so on. -/
def ancestors (path : String) : List String := ancestorsWithin (parts path).length path

end FormCompiler.Path
