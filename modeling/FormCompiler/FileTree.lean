import FormCompiler.Path

/-! Files and directories, as a value. A place in the tree is the list of names that leads to it from
the root. A path in words leads to a place by one name after the other, and each name but the last has
to be a directory's. -/

namespace FormCompiler

inductive FileFault where
  | notFound
  | fileExists
  | notADirectory
  | isADirectory
  | nameTooLong
  deriving DecidableEq, Inhabited

namespace FileFault

def text : FileFault → String
  | notFound => "No such file or directory (os error 2)"
  | fileExists => "File exists (os error 17)"
  | notADirectory => "Not a directory (os error 20)"
  | isADirectory => "Is a directory (os error 21)"
  | nameTooLong => "File name too long (os error 36)"

end FileFault

/-- The text of bytes that are valid UTF-8. -/
def decodeText? (bytes : ByteArray) : Option String := String.fromUTF8? bytes

structure FileTree where
  files : List (List String × ByteArray) := []
  /-- Directories, whether anything is in them or not. -/
  directories : List (List String) := []
  /-- The directory where relative paths start. -/
  home : List String := []
  deriving Inhabited

namespace FileTree

def longestName : Nat := 255

def longestPath : Nat := 4095

def isFile (t : FileTree) (place : List String) : Bool := t.files.any (·.1 = place)

/-- A directory is one that was made, or one that something is in. -/
def isDirectory (t : FileTree) (place : List String) : Bool :=
  place.isPrefixOf t.home || t.directories.any (place.isPrefixOf ·)
    || t.files.any fun (file, _) => place.isPrefixOf file && place != file

def put (t : FileTree) (place : List String) (bytes : ByteArray) : FileTree :=
  { t with files := (place, bytes) :: t.files.filter (·.1 ≠ place) }

/-- Where a name leads from a directory, whether anything is there or not. -/
def step (place : List String) (name : String) : Except FileFault (List String) :=
  if Path.isIdle name then .ok place
  else if name = ".." then .ok place.dropLast
  else if longestName < name.utf8ByteSize then .error .nameTooLong
  else .ok (place ++ [name])

def enter (t : FileTree) (place : List String) (name : String) : Except FileFault (List String) := do
  let next ← step place name
  if t.isDirectory next then .ok next
  else if t.isFile next then .error .notADirectory
  else .error .notFound

/-- The directory that the names of a path lead to, without the last of them. -/
def directoryOf (t : FileTree) (path : String) (names : List String) :
    Except FileFault (List String) :=
  if path = "" then .error .notFound
  else if longestPath < path.utf8ByteSize then .error .nameTooLong
  else names.dropLast.foldlM t.enter (if Path.isAbsolute path then [] else t.home)

/-- The place a path leads to, whether anything is there or not. -/
def placeOf (t : FileTree) (path : String) : Except FileFault (List String) := do
  let names := Path.parts path
  step (← t.directoryOf path names) (names.getLastD "")

/-- The directory and the name for something new. A path that ends in dots, or has no name, leads to a
directory that is there. -/
def entryOf (t : FileTree) (path : String) : Except FileFault (List String × Option String) := do
  let names := ((Path.parts path).reverse.dropWhile (· = "")).reverse
  let directory ← t.directoryOf path names
  let name := names.getLastD ""
  return (directory, if Path.isIdle name || name = ".." then none else some name)

def leadsToDirectory (t : FileTree) (path : String) : Bool :=
  match t.placeOf path with
  | .ok place => t.isDirectory place
  | .error _ => false

def bytesAt (t : FileTree) (path : String) : Except FileFault ByteArray := do
  let place ← t.placeOf path
  match t.files.lookup place with
  | some bytes => .ok bytes
  | none => .error (if t.isDirectory place then .isADirectory else .notFound)

/-- Writes a file into a directory that is there. With a slash at its end a path leads to no file. -/
def writeAt (t : FileTree) (path : String) (bytes : ByteArray) : Except FileFault FileTree := do
  match ← t.entryOf path with
  | (_, none) => .error .isADirectory
  | (directory, some name) =>
    if path.endsWith "/" then .error .isADirectory
    else
      let place ← step directory name
      if t.isDirectory place then .error .isADirectory else .ok (t.put place bytes)

def makeDirectory (t : FileTree) (path : String) : Except FileFault FileTree := do
  match ← t.entryOf path with
  | (_, none) => .error .fileExists
  | (directory, some name) =>
    let place ← step directory name
    if t.isFile place || t.isDirectory place then .error .fileExists
    else .ok { t with directories := place :: t.directories }

def ensureDirectory (t : FileTree) (path : String) : Except FileFault FileTree :=
  match t.makeDirectory path with
  | .ok made => .ok made
  | .error fault => if t.leadsToDirectory path then .ok t else .error fault

/-- Makes the first directory of a list, and if need be those after it before. -/
def ensureFirst (t : FileTree) : List String → Except FileFault FileTree
  | [] => .ok t
  | path :: above =>
    match t.ensureDirectory path with
    | .error .notFound => do (← t.ensureFirst above).ensureDirectory path
    | outcome => outcome

def makeDirectories (t : FileTree) (path : String) : Except FileFault FileTree :=
  t.ensureFirst (Path.ancestors path)

/-- The order in which a walk meets paths: name by name. -/
def metBefore : List String → List String → Bool
  | [], _ => true
  | _, [] => false
  | a :: as, b :: bs => if a = b then metBefore as bs else a < b

/-- The files below a directory with their paths from there, in the order of a walk. -/
def walk (t : FileTree) (root : List String) : List (List String × ByteArray) :=
  let below := t.files.filterMap fun (path, bytes) =>
    if root.isPrefixOf path && root != path then some (path.drop root.length, bytes) else none
  below.mergeSort fun a b => metBefore a.1 b.1

end FileTree

end FormCompiler
