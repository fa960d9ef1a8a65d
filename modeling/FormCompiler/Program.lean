import FormCompiler.Ancestry
import FormCompiler.Scope

/-! A program while it is being checked: all its tables. It starts with what the language provides. -/

namespace FormCompiler

/-- A `use` that waits until all modules are known. -/
structure PendingUse where
  scope : ScopeId
  path : List String
  alias? : Option String
  location : Location
  deriving Inhabited

/-- An `impl` block that waits until all types are known. -/
structure PendingImpl where
  scope : ScopeId
  target : TypeExpr
  methods : List EntityId
  location : Location
  deriving Inhabited

structure Program where
  entities : EntityTable := {}
  scopes : ScopeTable := {}
  exprs : Arena := {}
  ancestry : Ancestry := {}
  /-- Definitions and arguments that are being instantiated. -/
  instantiating : List (EntityId × List Ty) := []
  /-- How deep instantiations are nested, their bodies included. -/
  instanceDepth : Nat := 0
  pendingUses : List PendingUse := []
  pendingImpls : List PendingImpl := []
  deriving Inhabited

namespace Program

def provide (p : Program) (name : String) (kind : EntityKind) : Program :=
  let (id, entities) := p.entities.alloc name .builtin kind
  { p with entities, scopes := p.scopes.bind ScopeTable.root name id }

def provideFunction (p : Program) (name : String) (typeParams : List String)
    (params : List (String × TypeExpr)) (result : TypeExpr) (op : Intrinsic) : Program :=
  p.provide name <| .function {
    scope := ScopeTable.root
    typeParams
    params := params.map fun (param, declared) => ⟨param, declared, .builtin⟩
    returnExpr := some result
    body := .intrinsic op }

def provideOperator (p : Program) (operator : Operator) (operand : Prim) : Program :=
  match operand.numType? with
  | none => p
  | some type =>
    let declared := TypeExpr.resolved (.prim operand)
    p.provideFunction operator.name [] [("left", declared), ("right", declared)]
      (.resolved (.prim (operator.result operand))) (.binary operator.op type)

def provideOperators (p : Program) : Program :=
  Operator.all.foldl (fun p operator => operator.operands.foldl (·.provideOperator operator ·) p) p

def provideArrays (p : Program) : Program :=
  let element := TypeExpr.named "T" .builtin
  let array := TypeExpr.apply "FixedArray" [element] .builtin
  let index := TypeExpr.resolved .i32
  p.provideFunction "new_array" ["T"] [("size", index)] array .newArray
    |>.provideFunction "array_get" ["T"] [("array", array), ("index", index)] element .arrayGet
    |>.provideFunction "array_set" ["T"] [("array", array), ("index", index), ("value", element)]
      (.resolved .void) .arraySet
    |>.provideFunction "array_len" ["T"] [("array", array)] index .arrayLen

def objectId : EntityId := ⟨6⟩

/-- A program of only what the language provides: primitive types, the base type, arrays, operators. -/
def initial : Program :=
  let prims := Prim.all.foldl (fun (p : Program) prim => p.provide prim.name (.primitive prim)) {}
  prims.provide "Object" (.object { scope := ScopeTable.root, stage := .done })
    |>.provide "FixedArray" .arrayType
    |>.provideOperators
    |>.provideFunction "not" [] [("value", .resolved .bool)] (.resolved .bool) .not
    |>.provideArrays

end Program

/-- Steps that read and change a program, or refuse it. What was changed before a refusal stays. -/
abbrev Check := EStateM Diagnostic Program

namespace Check

def fail {α : Type} (location : Location) (cause : Cause) : Check α := throw (.here location cause)

def broken {α : Type} (location : Location) (fault : SemanticFault) : Check α :=
  throw (.rule location fault)

def allocEntity (name : String) (location : Location) (kind : EntityKind) : Check EntityId :=
  modifyGet fun p =>
    let (id, entities) := p.entities.alloc name location kind
    (id, { p with entities })

def allocExpr (shape : ExprShape) (location : Location) : Check ExprId :=
  modifyGet fun p =>
    let (id, exprs) := p.exprs.alloc shape location
    (id, { p with exprs })

def pushScope (parent : ScopeId) (kind : ScopeKind) : Check ScopeId :=
  modifyGet fun p =>
    let (id, scopes) := p.scopes.push parent kind
    (id, { p with scopes })

def register (scope : ScopeId) (id : EntityId) : Check Unit := do
  let p ← get
  let scopes ← ofExcept (p.scopes.register p.entities scope id)
  modify fun p => { p with scopes }

def registerAs (scope : ScopeId) (name : String) (id : EntityId) (location : Location) :
    Check Unit := do
  let p ← get
  let scopes ← ofExcept (p.scopes.registerAs p.entities scope name id location)
  modify fun p => { p with scopes }

def addExport (scope : ScopeId) (id : EntityId) : Check Unit :=
  modify fun p => { p with scopes := p.scopes.addExport scope id }

def entity (id : EntityId) : Check Entity := return (← get).entities.get id

def object? (id : EntityId) : Check (Option ObjectDef) := return (← get).entities.object? id

def function? (id : EntityId) : Check (Option FunctionDef) := return (← get).entities.function? id

def modifyObject (id : EntityId) (f : ObjectDef → ObjectDef) : Check Unit :=
  modify fun p => { p with entities := p.entities.modifyObject id f }

def modifyFunction (id : EntityId) (f : FunctionDef → FunctionDef) : Check Unit :=
  modify fun p => { p with entities := p.entities.modifyFunction id f }

def modifyAlias (id : EntityId) (f : AliasDef → AliasDef) : Check Unit :=
  modify fun p => { p with entities := p.entities.modifyAlias id f }

def node (id : ExprId) : Check Expr := return (← get).exprs.get id

def setShape (id : ExprId) (shape : ExprShape) : Check Unit :=
  modify fun p => { p with exprs := p.exprs.setShape id shape }

def typeName (type : Ty) : Check String := return (← get).entities.typeName type

def displayName (id : EntityId) : Check String := return (← get).entities.displayName id

def chain (id : EntityId) : Check (List EntityId) :=
  modifyGet fun p =>
    let (chain, ancestry) := p.ancestry.chain p.entities id
    (chain, { p with ancestry })

def distance? (id ancestor : EntityId) : Check (Option Nat) :=
  modifyGet fun p =>
    let (distance, ancestry) := p.ancestry.distance? p.entities id ancestor
    (distance, { p with ancestry })

def extends? (id ancestor : EntityId) : Check Bool :=
  return (← distance? id ancestor).isSome

/-- Whether a value of type `source` can stand where `wanted` is expected. -/
def isAssignable (source wanted : Ty) : Check Bool := do
  if source = wanted || source = .never then return true
  match source, wanted with
  | .object sub, .object sup => extends? sub sup
  | _, _ => return false

/-- The type of an expression that may take either of two branches. -/
def join? (a b : Ty) : Check (Option Ty) :=
  modifyGet fun p =>
    let (type, ancestry) := p.ancestry.join? p.entities a b
    (type, { p with ancestry })

def expectAssignable (source wanted : Ty) (location : Location) : Check Unit := do
  unless ← isAssignable source wanted do
    fail location (.typeMismatch (← typeName wanted) (← typeName source))

end Check

end FormCompiler
