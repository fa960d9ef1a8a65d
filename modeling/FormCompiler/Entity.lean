import FormCompiler.Expr
import FormCompiler.Intrinsic

/-! Entities: whatever a name can stand for. They are added to a table, completed in place while
types are resolved, and never removed. -/

namespace FormCompiler

inductive Stage where
  | pending
  | inProgress
  | done
  deriving DecidableEq, Inhabited

structure Field where
  name : String
  type : Ty
  deriving DecidableEq, Inhabited

/-- Instances of a generic definition by their type arguments. -/
abbrev Instances := List (List Ty × EntityId)

/-- An object type, or the definition of a generic one. -/
structure ObjectDef where
  /-- Where the type names of the declaration are looked up. -/
  scope : ScopeId
  typeParams : List String := []
  appliedArgs : List Ty := []
  genericOf : Option EntityId := none
  parentExpr : Option TypeExpr := none
  fieldExprs : List (String × TypeExpr) := []
  parent : Option EntityId := none
  /-- The layout: fields of the parent first. -/
  fields : List Field := []
  stage : Stage := .pending
  instances : Instances := []
  /-- Functions of the type's `impl` blocks. -/
  methods : List EntityId := []
  deriving Inhabited

namespace ObjectDef

def isGeneric (d : ObjectDef) : Bool := !d.typeParams.isEmpty

def fieldIndex? (d : ObjectDef) (name : String) : Option Nat := d.fields.findIdx? (·.name == name)

end ObjectDef

structure Param where
  name : String
  declared : TypeExpr
  location : Location
  deriving Inhabited

inductive FunctionBody where
  /-- The nodes from `first` to `root`. -/
  | expr (first root : ExprId)
  | intrinsic (op : Intrinsic)
  /-- Provided by the host. -/
  | host (module name : String)
  deriving Inhabited

structure FunctionDef where
  scope : ScopeId
  typeParams : List String := []
  appliedArgs : List Ty := []
  genericOf : Option EntityId := none
  params : List Param
  returnExpr : Option TypeExpr := none
  body : FunctionBody
  paramVars : List EntityId := []
  paramTypes : List Ty := []
  returnType : Option Ty := none
  bodyScope : Option ScopeId := none
  signature : Stage := .pending
  bodyStage : Stage := .pending
  instances : Instances := []
  deriving Inhabited

namespace FunctionDef

def isGeneric (d : FunctionDef) : Bool := !d.typeParams.isEmpty

def intrinsic? (d : FunctionDef) : Option Intrinsic :=
  match d.body with
  | .intrinsic op => some op
  | _ => none

def hasBody (d : FunctionDef) : Bool :=
  match d.body with
  | .expr _ _ => true
  | _ => false

end FunctionDef

structure AliasDef where
  scope : ScopeId
  target : TypeExpr
  resolved : Option Ty := none
  stage : Stage := .pending
  deriving Inhabited

inductive EntityKind where
  | primitive (prim : Prim)
  /-- The generic array type. -/
  | arrayType
  | object (d : ObjectDef)
  | function (d : FunctionDef)
  | var (type : Ty) (mutable : Bool)
  | typeAlias (d : AliasDef)
  | module (scope : ScopeId)
  deriving Inhabited

structure Entity where
  name : String
  location : Location
  kind : EntityKind
  deriving Inhabited

namespace Entity

def isFunction (e : Entity) : Bool :=
  match e.kind with
  | .function _ => true
  | _ => false

def object? (e : Entity) : Option ObjectDef :=
  match e.kind with
  | .object d => some d
  | _ => none

def function? (e : Entity) : Option FunctionDef :=
  match e.kind with
  | .function d => some d
  | _ => none

def alias? (e : Entity) : Option AliasDef :=
  match e.kind with
  | .typeAlias d => some d
  | _ => none

def module? (e : Entity) : Option ScopeId :=
  match e.kind with
  | .module scope => some scope
  | _ => none

def appliedArgs (e : Entity) : List Ty :=
  match e.kind with
  | .object d => d.appliedArgs
  | .function d => d.appliedArgs
  | _ => []

end Entity

structure EntityTable where
  entries : Array Entity := #[]
  deriving Inhabited

namespace EntityTable

def size (t : EntityTable) : Nat := t.entries.size

def get (t : EntityTable) (id : EntityId) : Entity := t.entries.getD id.index default

def alloc (t : EntityTable) (name : String) (location : Location) (kind : EntityKind) :
    EntityId × EntityTable :=
  (⟨t.size⟩, ⟨t.entries.push ⟨name, location, kind⟩⟩)

def modifyKind (t : EntityTable) (id : EntityId) (f : EntityKind → EntityKind) : EntityTable :=
  ⟨t.entries.modify id.index fun e => { e with kind := f e.kind }⟩

def object? (t : EntityTable) (id : EntityId) : Option ObjectDef := (t.get id).object?

def function? (t : EntityTable) (id : EntityId) : Option FunctionDef := (t.get id).function?

def modifyObject (t : EntityTable) (id : EntityId) (f : ObjectDef → ObjectDef) : EntityTable :=
  t.modifyKind id fun
    | .object d => .object (f d)
    | kind => kind

def modifyFunction (t : EntityTable) (id : EntityId) (f : FunctionDef → FunctionDef) :
    EntityTable :=
  t.modifyKind id fun
    | .function d => .function (f d)
    | kind => kind

def modifyAlias (t : EntityTable) (id : EntityId) (f : AliasDef → AliasDef) : EntityTable :=
  t.modifyKind id fun
    | .typeAlias d => .typeAlias (f d)
    | kind => kind

def ids (t : EntityTable) : List EntityId := (List.range t.size).map EntityId.mk

/-- The objects that can exist at run time, which are those with a known layout. -/
def concreteObjects (t : EntityTable) : List (EntityId × ObjectDef) :=
  t.ids.filterMap fun id =>
    match t.object? id with
    | some d => if !d.isGeneric && d.stage = .done then some (id, d) else none
    | none => none

/-- An entity's name with its type arguments. The entities they name are followed `hops` times. -/
def displayNameWithin (t : EntityTable) : Nat → EntityId → String
  | 0, id => (t.get id).name
  | hops + 1, id =>
    let e := t.get id
    if e.appliedArgs.isEmpty then e.name
    else
      let args := e.appliedArgs.map fun arg => arg.nameWith (t.displayNameWithin hops)
      e.name ++ "<" ++ ", ".intercalate args ++ ">"

/-- An entity's name with its type arguments, which are older entities. -/
def displayName (t : EntityTable) (id : EntityId) : String := t.displayNameWithin t.size id

/-- A type as it is written in messages and in names of generated functions. -/
def typeName (t : EntityTable) (type : Ty) : String := type.nameWith t.displayName

end EntityTable

end FormCompiler
