import FormCompiler.Declaration
import FormCompiler.Form.Reader
import FormCompiler.Import
import FormCompiler.Library
import FormCompiler.Lower
import FormCompiler.Resolve
import FormCompiler.Wasm.Binary
import FormCompiler.Wasm.Wat

/-! From source text to a module: the library becomes the module `std`, the text the module `src`, and
the functions `src` shows to the outside are compiled with all that they reach. -/

namespace FormCompiler

open Check

/-- Reads declarations from text into a module. -/
def addSource (scope : ScopeId) (file source : String) : Check Unit := do
  Declaration.addAll scope (← ofExcept (Form.read file source))

def addFiles (scope : ScopeId) : List SourceFile → Check Unit
  | [] => return
  | file :: files => do
    addSource scope ("std/" ++ file.path) file.text
    addFiles scope files

def addRootModule (name : String) : Check ScopeId := do
  return (← Declaration.newModule ScopeTable.root name .builtin).2

def addLibrary (files : List SourceFile) : Check Unit := do
  addFiles (← addRootModule "std") files

/-- The function that starts a program. It is visible from outside in any case. -/
def entryPoint : String := "main"

/-- Keeps functions that are not generic, with their names, which must differ. -/
def namedExports (entities : EntityTable) (found : List (String × EntityId)) :
    List EntityId → Except Diagnostic (List (String × EntityId))
  | [] => .ok found
  | id :: ids =>
    let e := entities.get id
    match e.function? with
    | none => namedExports entities found ids
    | some d =>
      if d.isGeneric then namedExports entities found ids
      else if found.any (·.1 == e.name) then .error (.here e.location (.duplicateBinding e.name))
      else namedExports entities (found ++ [(e.name, id)]) ids

/-- The functions a module shows to the outside. -/
def Program.exportsOf (p : Program) (scope : ScopeId) :
    Except Diagnostic (List (String × EntityId)) :=
  namedExports p.entities [] (p.scopes.exports scope ++ p.scopes.here scope entryPoint).eraseDups

/-- All phases up to the resolved program; gives its exports. -/
def checkSource (library : List SourceFile) (file source : String) :
    Check (List (String × EntityId)) := do
  addLibrary library
  let scope ← addRootModule "src"
  addSource scope file source
  Import.bindAll
  resolveProgram
  ofExcept ((← get).exportsOf scope)

structure Artifact where
  wasm : Wasm.Bytes
  module : Wasm.Module
  library : List SourceFile
  exports : List String

/-- Compiles source text. `file` is its name in messages. -/
def compile (library : List SourceFile) (file source : String) : Except Diagnostic Artifact :=
  match checkSource library file source Program.initial with
  | .error d _ => .error d
  | .ok exports p => do
    let module ← lowerProgram p exports
    let wasm ← module.encode
    return { wasm, module, library, exports := exports.map (·.1) }

end FormCompiler
