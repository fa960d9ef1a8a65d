import FormCompiler.Program

/-! Imports: each `use` binds names of other modules, once all modules are known. -/

namespace FormCompiler

namespace Import

open Check

def firstModule? (entities : EntityTable) (ids : List EntityId) : Option ScopeId :=
  ids.findSome? fun id => (entities.get id).module?

/-- Follows a path from module to module; each must be visible from outside the one before it. -/
def descend (location : Location) (scope : ScopeId) : List String → Check ScopeId
  | [] => return scope
  | segment :: path => do
    let p ← get
    match firstModule? p.entities (p.scopes.exported p.entities scope segment) with
    | some inner => descend location inner path
    | none => fail location (.unresolvedIdentifier segment)

/-- A module that is visible under a name, itself and its scope. -/
def visibleModule (scope : ScopeId) (name : String) (location : Location) :
    Check (EntityId × ScopeId) := do
  let p ← get
  match p.scopes.resolve? p.entities scope name with
  | none => fail location (.unresolvedIdentifier name)
  | some id =>
    match (p.entities.get id).module? with
    | none => fail location (.unresolvedIdentifier name)
    | some inner => return (id, inner)

/-- The name an imported entity gets. A new name is ignored where everything is imported. -/
def importedName (p : Program) (alias? : Option String) (last : String) (id : EntityId) : String :=
  match alias? with
  | some name => if last = "all" then (p.entities.get id).name else name
  | none => (p.entities.get id).name

def registerAll (use : PendingUse) (last : String) : List EntityId → Check Unit
  | [] => return
  | id :: ids => do
    registerAs use.scope (importedName (← get) use.alias? last id) id use.location
    registerAll use last ids

/-- Binds what a `use` asks for: a module under a new name, or what a module makes visible. -/
def bind (use : PendingUse) : Check Unit := do
  match use.path with
  | [] => fail use.location (.unresolvedIdentifier "use")
  | [name] =>
    let (id, _) ← visibleModule use.scope name use.location
    registerAs use.scope (use.alias?.getD name) id use.location
  | first :: second :: path =>
    let last := (second :: path).getLast (by simp)
    let (_, scope) ← visibleModule use.scope first use.location
    let scope ← descend use.location scope (second :: path).dropLast
    let p ← get
    let imported :=
      if last = "all" then p.scopes.exports scope else p.scopes.exported p.entities scope last
    if imported.isEmpty && last ≠ "all" then fail use.location (.unresolvedIdentifier last)
    registerAll use last imported

def bindEach : List PendingUse → Check Unit
  | [] => return
  | use :: uses => do
    bind use
    bindEach uses

def bindAll : Check Unit := do
  let uses := (← get).pendingUses
  modify fun p => { p with pendingUses := [] }
  bindEach uses

end Import

end FormCompiler
