import FormCompiler.Cli.Command

/-! The command line on real files: what a command may need is read first, and what it changed is
written afterwards. -/

namespace FormCompiler.Cli

/-- Notes what a path leads to, and the directories on the way. -/
def loadPath (tree : FileTree) (path : String) : IO FileTree := do
  let names := Path.parts path
  let mut tree := tree
  for count in List.range names.length do
    let here := Path.ofParts (names.take (count + 1))
    if let .ok place := tree.placeOf here then
      try
        let real ← IO.FS.realPath here
        if ← real.isDir then tree := { tree with directories := place :: tree.directories }
        else tree := tree.put place (← IO.FS.readBinFile here)
      catch _ => pure ()
  return tree

def loadBelow (tree : FileTree) (path : String) : IO FileTree := do
  let tree ← loadPath tree path
  match tree.placeOf path with
  | .error _ => return tree
  | .ok place =>
    unless tree.isDirectory place do return tree
    let real ← IO.FS.realPath path
    let start := real.toString.length + 1
    let mut tree := tree
    for file in ← real.walkDir do
      unless ← file.isDir do
        let below := Path.parts (file.toString.drop start).toString
        tree := tree.put (place ++ below) (← IO.FS.readBinFile file)
    return tree

/-- The files a command may read or run into. -/
def loadFor (o : Options) : IO FileTree := do
  let here := (Path.parts (← IO.currentDir).toString).filter (· ≠ "")
  let tree : FileTree := { home := here }
  let tree ← o.input.elim (pure tree) (loadPath tree)
  let tree ← o.library.elim (pure tree) (loadBelow tree)
  o.output.elim (pure tree) (loadPath tree)

/-- Makes the directories and writes the files that a command left. -/
def store (before after : FileTree) : IO Unit := do
  let path (place : List String) := Path.ofParts ("" :: place)
  for place in after.directories.reverse do
    unless before.isDirectory place do IO.FS.createDirAll (path place)
  for (place, bytes) in after.files do
    let unchanged := (before.files.lookup place).any (· == bytes)
    unless unchanged do IO.FS.writeBinFile (path place) bytes

end FormCompiler.Cli

open FormCompiler in
def main (arguments : List String) : IO UInt32 := do
  let (stdin, files) ←
    match Cli.read arguments with
    | some (.compile o) =>
      let stdin ← if o.input.isNone then (← IO.getStdin).readBinToEnd else pure .empty
      pure (stdin, ← Cli.loadFor o)
    | _ => pure (.empty, {})
  let outcome := Cli.run arguments stdin files
  Cli.store files outcome.files
  (← IO.getStdout).putStr outcome.stdout
  (← IO.getStderr).putStr outcome.stderr
  return UInt32.ofNat outcome.code
