import FormCompiler.Resolve.Solver

/-! Types: what a type expression stands for, aliases, and the layouts of objects. Instances of generic
objects are made when they are first asked for and then kept. -/

namespace FormCompiler

open Check

namespace Solver

variable (S : Solver)

def objectInstance (generic : EntityId) (d : ObjectDef) (args : List Ty) : ObjectDef :=
  let subst := d.typeParams.zip args
  { scope := d.scope
    appliedArgs := args
    genericOf := some generic
    parentExpr := d.parentExpr.map (·.substitute subst)
    fieldExprs := d.fieldExprs.map fun (name, type) => (name, type.substitute subst) }

/-- The instance of a generic object for some arguments. It is kept only if it has a layout. -/
def instantiateObject (generic : EntityId) (args : List Ty) (location : Location) :
    Check EntityId := do
  let e ← entity generic
  match e.object? with
  | none => broken location (.notAnObject e.name)
  | some d =>
    expectArity e.name d.typeParams.length args.length location
    match cached? d.instances args with
    | some id => return id
    | none =>
      enterInstance generic args location
      let id ← allocEntity e.name e.location (.object (objectInstance generic d args))
      leavingDepth (leavingKey (S.object id))
      modifyObject generic fun d => { d with instances := d.instances ++ [(args, id)] }
      return id

def typeEntity (scope : ScopeId) (name : String) (location : Location) :
    Check (EntityId × EntityKind) := do
  let p ← get
  match p.scopes.resolve? p.entities scope name with
  | some id => return (id, (p.entities.get id).kind)
  | none => fail location (.unresolvedType name)

mutual

def resolveType (scope : ScopeId) : TypeExpr → Check Ty
  | .resolved type => return type
  | .named name location => do
    let (id, kind) ← typeEntity scope name location
    match kind with
    | .primitive prim => return .prim prim
    | .object d =>
      expectArity name d.typeParams.length 0 location
      return .object id
    | .arrayType => fail location (.invalidGenericArgs name 1 0)
    | .typeAlias _ => S.aliased id
    | _ => fail location (.unresolvedType name)
  | .apply name args location => do
    let (id, kind) ← typeEntity scope name location
    let args ← resolveTypes scope args
    match kind with
    | .arrayType =>
      match args with
      | [element] => return .array element
      | _ => fail location (.invalidGenericArgs name 1 args.length)
    | .object d =>
      if d.isGeneric then return .object (← S.instantiateObject id args location)
      else fail location (.invalidGenericArgs name 0 args.length)
    | .primitive _ | .typeAlias _ => fail location (.invalidGenericArgs name 0 args.length)
    | _ => fail location (.unresolvedType name)

def resolveTypes (scope : ScopeId) : List TypeExpr → Check (List Ty)
  | [] => return []
  | t :: ts => do
    let type ← resolveType scope t
    return type :: (← resolveTypes scope ts)

end

/-- The type of an alias. One that is reached again on the way to its own type has none. -/
def resolveAlias (id : EntityId) : Check Ty := do
  let e ← entity id
  match e.alias? with
  | none => broken e.location (.notAnAlias e.name)
  | some d =>
    match d.stage, d.resolved with
    | .done, some type => return type
    | .inProgress, _ => fail e.location (.unresolvedType e.name)
    | _, _ =>
      modifyAlias id fun d => { d with resolved := none, stage := .inProgress }
      let type ← S.resolveType d.scope d.target
      modifyAlias id fun d => { d with resolved := some type, stage := .done }
      return type

/-- The parent an object declares, or the base type. -/
def parentOf (d : ObjectDef) (location : Location) : Check EntityId := do
  match d.parentExpr with
  | none => return Program.objectId
  | some t =>
    match ← S.resolveType d.scope t with
    | .object parent => return parent
    | other => fail location (.typeMismatch "an object type" (← typeName other))

/-- Adds declared fields to a layout. A field may be declared again with the type it has. -/
def layout (scope : ScopeId) (location : Location) (fields : List Field) :
    List (String × TypeExpr) → Check (List Field)
  | [] => return fields
  | (name, t) :: rest => do
    let type ← S.resolveType scope t
    unless type.hasValue do
      broken (t.location?.getD location) (.fieldType name (← typeName type))
    match fields.find? (·.name == name) with
    | some field =>
      unless field.type = type do
        fail location (.typeMismatch (← typeName field.type) (← typeName type))
      layout scope location fields rest
    | none => layout scope location (fields ++ [⟨name, type⟩]) rest

def resolveObject (id : EntityId) : Check Unit := do
  let e ← entity id
  match e.object? with
  | none => broken e.location (.notAnObject e.name)
  | some d =>
    match d.stage with
    | .done => return
    | .inProgress => fail e.location (.cyclicInheritance e.name)
    | .pending =>
      if d.isGeneric then return
      modifyObject id fun d => { d with stage := .inProgress }
      let parent ← S.parentOf d e.location
      S.object parent
      modifyObject id fun d => { d with parent := some parent }
      let inherited := ((← object? parent).map (·.fields)).getD []
      let fields ← S.layout d.scope e.location inherited d.fieldExprs
      modifyObject id fun d => { d with fields, stage := .done }

end Solver

end FormCompiler
