import FormCompiler.Entity

/-! Scopes: a tree of name tables. A name stands for one entity or for a set of functions. -/

namespace FormCompiler

inductive ScopeKind where
  | root
  | module
  | function
  | block
  | case
  deriving DecidableEq, Inhabited

namespace ScopeKind

def name : ScopeKind → String
  | root => "Root"
  | module => "Module"
  | function => "Function"
  | block => "Block"
  | case => "Case"

end ScopeKind

structure Scope where
  parent : Option ScopeId
  kind : ScopeKind
  bindings : List (String × List EntityId) := []
  exports : List EntityId := []
  deriving Inhabited

namespace Scope

def bound (s : Scope) (name : String) : List EntityId := (s.bindings.lookup name).getD []

end Scope

def bindName (name : String) (id : EntityId) :
    List (String × List EntityId) → List (String × List EntityId)
  | [] => [(name, [id])]
  | (other, ids) :: rest =>
    if other = name then (other, ids ++ [id]) :: rest else (other, ids) :: bindName name id rest

/-- Scopes by identity. The first is the root, and parents come before their children. -/
structure ScopeTable where
  scopes : Array Scope := #[{ parent := none, kind := .root }]
  deriving Inhabited

namespace ScopeTable

def root : ScopeId := ⟨0⟩

def size (t : ScopeTable) : Nat := t.scopes.size

def get (t : ScopeTable) (id : ScopeId) : Scope := t.scopes.getD id.index default

def push (t : ScopeTable) (parent : ScopeId) (kind : ScopeKind) : ScopeId × ScopeTable :=
  (⟨t.size⟩, ⟨t.scopes.push { parent := some parent, kind }⟩)

def here (t : ScopeTable) (scope : ScopeId) (name : String) : List EntityId :=
  (t.get scope).bound name

/-- Binds a name without asking whether it is free. -/
def bind (t : ScopeTable) (scope : ScopeId) (name : String) (id : EntityId) : ScopeTable :=
  ⟨t.scopes.modify scope.index fun s => { s with bindings := bindName name id s.bindings }⟩

/-- Binds a name. Only functions can share one; binding an entity again changes nothing. -/
def registerAs (t : ScopeTable) (entities : EntityTable) (scope : ScopeId) (name : String)
    (id : EntityId) (location : Location) : Except Diagnostic ScopeTable :=
  let bound := t.here scope name
  if bound.contains id then .ok t
  else if bound.isEmpty || (id :: bound).all fun other => (entities.get other).isFunction then
    .ok (t.bind scope name id)
  else .error (.here location (.duplicateBinding name))

def register (t : ScopeTable) (entities : EntityTable) (scope : ScopeId) (id : EntityId) :
    Except Diagnostic ScopeTable :=
  let e := entities.get id
  t.registerAs entities scope e.name id e.location

def ancestorsWithin (t : ScopeTable) : Nat → ScopeId → List ScopeId
  | 0, _ => []
  | steps + 1, id =>
    id ::
      match (t.get id).parent with
      | some parent => t.ancestorsWithin steps parent
      | none => []

/-- The scope and those around it, innermost first. -/
def ancestors (t : ScopeTable) (scope : ScopeId) : List ScopeId := t.ancestorsWithin t.size scope

/-- The nearest entity of a name that is not a function. -/
def resolve? (t : ScopeTable) (entities : EntityTable) (scope : ScopeId) (name : String) :
    Option EntityId :=
  (t.ancestors scope).findSome? fun s =>
    (t.here s name).find? fun id => !(entities.get id).isFunction

/-- The functions of a name, innermost first, each once. -/
def overloads (t : ScopeTable) (entities : EntityTable) (scope : ScopeId) (name : String) :
    List EntityId :=
  ((t.ancestors scope).flatMap fun s =>
    (t.here s name).filter fun id => (entities.get id).isFunction).eraseDups

def addExport (t : ScopeTable) (scope : ScopeId) (id : EntityId) : ScopeTable :=
  ⟨t.scopes.modify scope.index fun s =>
    if s.exports.contains id then s else { s with exports := s.exports ++ [id] }⟩

def exports (t : ScopeTable) (scope : ScopeId) : List EntityId := (t.get scope).exports

def exported (t : ScopeTable) (entities : EntityTable) (scope : ScopeId) (name : String) :
    List EntityId :=
  (t.exports scope).filter fun id => (entities.get id).name = name

end ScopeTable

end FormCompiler
