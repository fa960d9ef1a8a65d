import FormCompiler.Declaration.Body
import FormCompiler.Declaration.Header

/-! Declarations of a module: each adds an entity and binds its name. Paths of `use` and targets of
`impl` are looked up later, when all names are known. -/

namespace FormCompiler

namespace Declaration

open Check

/-- Adds a module with a scope of its own and binds its name. -/
def newModule (parent : ScopeId) (name : String) (location : Location) :
    Check (EntityId × ScopeId) := do
  let scope ← pushScope parent .module
  let id ← allocEntity name location (.module scope)
  register parent id
  return (id, scope)

/-- Reads a function with a body. The function itself is not bound to its name. -/
def newFunction (scope : ScopeId) (receiver : Option TypeExpr) (outerParams : List String)
    (location : Location) (items : List Form) : Check EntityId := do
  let (header, params) ← ofExcept (FunctionHeader.ofItems receiver location items)
  let first := (← get).exprs.next
  let root ← Body.ofSequence location header.body
  allocEntity header.name location <| .function {
    scope
    typeParams := outerParams ++ header.typeParams
    params
    returnExpr := header.returnExpr
    body := .expr first root }

def newObject (scope : ScopeId) (location : Location) (items : List Form) : Check EntityId := do
  let name ← ofExcept (declaredName "obj" location items)
  let d ← ofExcept (ObjectDef.readParts { scope } items.tail)
  allocEntity name location (.object d)

def newAlias (scope : ScopeId) (location : Location) (items : List Form) : Check EntityId := do
  let name ← ofExcept (declaredName "type" location items)
  match items with
  | [_, target] => allocEntity name location (.typeAlias { scope, target := ← ofExcept (TypeExpr.ofForm target) })
  | _ => broken location .aliasArity

/-- Binds an entity to its name and makes it visible from outside if asked to. -/
def publish (scope : ScopeId) (exported : Bool) (id : EntityId) : Check Unit := do
  register scope id
  if exported then addExport scope id

def addUse (scope : ScopeId) (location : Location) (items : List Form) : Check Unit := do
  let (path, alias?) ← ofExcept (useParts location items)
  modify fun p => { p with pendingUses := p.pendingUses ++ [⟨scope, path, alias?, location⟩] }

def newMethod (scope : ScopeId) (target : TypeExpr) (outerParams : List String) (item : Form) :
    Check EntityId := do
  if item.startsWith "fn" then
    newFunction scope (some target) outerParams item.location item.tail
  else broken item.location .implItem

def addImpl (scope : ScopeId) (location : Location) (items : List Form) : Check Unit := do
  let (outerParams, rest) ←
    match items with
    | first :: rest =>
      if first.startsWith "type_params" then
        pure ((← ofExcept (Form.names first.tail)), rest)
      else pure ([], items)
    | [] => pure ([], [])
  match rest with
  | [] => broken location .implTargetMissing
  | target :: methods =>
    let target ← ofExcept (TypeExpr.ofForm target)
    let methods ← methods.mapM (newMethod scope target outerParams)
    modify fun p => { p with pendingImpls := p.pendingImpls ++ [⟨scope, target, methods, location⟩] }

def newHostFunction (scope : ScopeId) (host : String) (exported : Bool) (location : Location)
    (items : List Form) : Check Unit := do
  let (header, params) ← ofExcept (FunctionHeader.ofItems none location items)
  unless header.typeParams.isEmpty && header.body.isEmpty do
    broken location (.declaredBody header.name)
  let id ← allocEntity header.name location <| .function {
    scope
    params
    returnExpr := header.returnExpr
    body := .host host header.name }
  publish scope exported id

mutual

/-- An item of a `declare` block: functions, singly or in groups. -/
def addHostItem (scope : ScopeId) (host : String) (exported : Bool) : Form → Check Unit
  | .list (head :: items) location =>
    match head.identifier? with
    | some "block" => addHostItems scope host exported items
    | some "pub" => addHostItems scope host true items
    | some "fn" => newHostFunction scope host exported location items
    | _ => broken location .declareItem
  | form => broken form.location .declareItem

def addHostItems (scope : ScopeId) (host : String) (exported : Bool) : List Form → Check Unit
  | [] => return
  | form :: forms => do
    addHostItem scope host exported form
    addHostItems scope host exported forms

end

/-- Whether a form can stand under `pub`. -/
def isExportable (form : Form) : Bool :=
  !(form.startsWith "use" || form.startsWith "pub" || form.startsWith "impl"
    || form.startsWith "declare")

mutual

def add (scope : ScopeId) (exported : Bool) : Form → Check Unit
  | .list (head :: items) location => do
    match head.identifier?, items with
    | some "fn", items => publish scope exported (← newFunction scope none [] location items)
    | some "obj", items => publish scope exported (← newObject scope location items)
    | some "type", items => publish scope exported (← newAlias scope location items)
    | some "mod", .identifier name _ :: forms =>
      let (id, inner) ← newModule scope name location
      addAll inner forms
      if exported then addExport scope id
    | some "mod", _ => broken location (.nameMissing "mod")
    | some "pub", [form] =>
      if isExportable form then add scope true form else broken form.location .notExportable
    | some "pub", _ => broken location .pubArity
    | some "use", items => addUse scope location items
    | some "impl", items => addImpl scope location items
    | some "declare", .string host _ :: forms => addHostItems scope host false forms
    | some "declare", _ => broken location .namespaceMissing
    | _, _ => broken location .notADeclaration
  | form => broken form.location .notADeclaration

def addAll (scope : ScopeId) : List Form → Check Unit
  | [] => return
  | form :: forms => do
    add scope false form
    addAll scope forms

end

end Declaration

end FormCompiler
