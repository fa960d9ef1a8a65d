import FormCompiler.Resolve.Function

/-! Calls: constructors, overloaded functions and methods, and field access. A call means the one
candidate whose parameters are nearest to the arguments in the tree of types. -/

namespace FormCompiler

open Check

mutual

/-- Matches the type of a parameter with the type of its argument. `bound` holds what each type
parameter stands for so far. Parts that say nothing about type parameters match anything. -/
def unify (entities : EntityTable) (typeParams : List String) :
    TypeExpr → Ty → List (Option Ty) → Option (List (Option Ty))
  | .named name _, actual, bound =>
    match typeParams.idxOf? name with
    | none => some bound
    | some index =>
      match (bound[index]?).join with
      | some known => if known = actual then some bound else none
      | none => some (bound.set index (some actual))
  | .apply name [arg] _, .array element, bound =>
    if name = "FixedArray" then unify entities typeParams arg element bound else some bound
  | .apply name args _, .object id, bound =>
    match entities.object? id with
    | none => some bound
    | some d =>
      if d.genericOf.any (fun generic => (entities.get generic).name = name)
        && d.appliedArgs.length = args.length then
        unifyAll entities typeParams args d.appliedArgs bound
      else some bound
  | _, _, bound => some bound

def unifyAll (entities : EntityTable) (typeParams : List String) :
    List TypeExpr → List Ty → List (Option Ty) → Option (List (Option Ty))
  | t :: ts, actual :: actuals, bound =>
    match unify entities typeParams t actual bound with
    | some bound => unifyAll entities typeParams ts actuals bound
    | none => none
  | _, _, bound => some bound

end

/-- What each type parameter must stand for; all of them must be determined. -/
def inferTypeArgs (entities : EntityTable) (typeParams : List String) (params : List TypeExpr)
    (argTypes : List Ty) : Option (List Ty) := do
  let bound ← unifyAll entities typeParams params argTypes (typeParams.map fun _ => none)
  bound.mapM id

/-- The methods of a name for a type and those above it, nearest first. -/
def methodsWithin (entities : EntityTable) (name : String) : Nat → EntityId → List EntityId
  | 0, _ => []
  | steps + 1, id =>
    match entities.object? id with
    | none => []
    | some d =>
      let owner := (d.genericOf.bind entities.object?).getD d
      owner.methods.filter (fun method => (entities.get method).name = name)
        ++ match d.parent with
          | some parent => methodsWithin entities name steps parent
          | none => []

def methodsOf (entities : EntityTable) (name : String) (id : EntityId) : List EntityId :=
  methodsWithin entities name (entities.size + 1) id

/-- The functions a call may mean: visible ones, then methods of the first argument. -/
def candidates (p : Program) (scope : ScopeId) (name : String) (argTypes : List Ty) :
    List EntityId :=
  let visible := p.scopes.overloads p.entities scope name
  match argTypes with
  | .object receiver :: _ => (visible ++ methodsOf p.entities name receiver).eraseDups
  | _ => visible

structure Viable where
  id : EntityId
  score : Nat
  /-- Type arguments, if the candidate is generic. -/
  typeArgs : Option (List Ty)

/-- How far up the parameter's type is from the argument's. -/
def conversionCost? (arg param : Ty) : Check (Option Nat) := do
  if arg = param || arg = .never then return some 0
  match arg, param with
  | .object sub, .object sup => distance? sub sup
  | _, _ => return none

/-- The sum over all arguments, if each can be passed. -/
def totalCost? : List Ty → List Ty → Check (Option Nat)
  | arg :: args, param :: params => do
    match ← conversionCost? arg param with
    | none => return none
    | some cost => return (← totalCost? args params).map (cost + ·)
  | _, _ => return some 0

/-- A function with its parameters, for messages. -/
def signatureText (entities : EntityTable) (id : EntityId) : String :=
  match entities.function? id with
  | none => entities.displayName id
  | some d =>
    let params :=
      if d.signature = .done then d.paramTypes.map entities.typeName
      else d.params.map fun param =>
        match param.declared with
        | .named name _ | .apply name _ _ => name
        | .resolved type => entities.typeName type
    entities.displayName id ++ "(" ++ ", ".intercalate params ++ ")"

/-- The field a call reads when it has one argument and no function accepts it. -/
def fieldAccess? (entities : EntityTable) (name : String) (argTypes : List Ty) :
    Option (EntityId × Nat × Ty) :=
  match argTypes with
  | [.object object] => do
    let d ← entities.object? object
    let index ← d.fieldIndex? name
    let field ← d.fields[index]?
    return (object, index, field.type)
  | _ => none

/-- Says why no candidate accepts the arguments. -/
def reportNoMatch {α : Type} (location : Location) (name : String) (argTypes explicit : List Ty)
    (all fitting : List EntityId) : Check α := do
  let entities := (← get).entities
  if all.isEmpty then fail location (.unresolvedIdentifier name)
  if fitting.isEmpty then fail location (.arityMismatch name argTypes.length)
  let counts := fitting.filterMap fun id =>
    (entities.function? id).bind fun d => if d.isGeneric then some d.typeParams.length else none
  if !explicit.isEmpty && !counts.contains explicit.length then
    fail location (.invalidGenericArgs name (counts.headD 0) explicit.length)
  fail location <| .typeMismatch (" or ".intercalate (fitting.map (signatureText entities)))
    (name ++ "(" ++ ", ".intercalate (argTypes.map entities.typeName) ++ ")")

/-- The cheapest of the candidates that accept the arguments. Two of one cost are refused. -/
def choose (location : Location) (name : String) (first : Viable) (rest : List Viable) :
    Check Viable := do
  let best := rest.foldl (fun least v => min least v.score) first.score
  match (first :: rest).filter (·.score = best) with
  | [winner] => return winner
  | [] => fail location (.unresolvedIdentifier name)
  | winners =>
    let entities := (← get).entities
    fail location (.ambiguousOverload name (winners.map fun v => signatureText entities v.id))

namespace Solver

variable (S : Solver)

/-- The types of a candidate's parameters for this call, with the type arguments of a generic one.
Nothing if the candidate does not fit. -/
def candidateTypes (id : EntityId) (d : FunctionDef) (argTypes explicit : List Ty) :
    Check (Option (List Ty × Option (List Ty))) := do
  if d.isGeneric then
    let declared := d.params.map (·.declared)
    let entities := (← get).entities
    let typeArgs? :=
      if explicit.isEmpty then inferTypeArgs entities d.typeParams declared argTypes
      else if explicit.length = d.typeParams.length then some explicit
      else none
    match typeArgs? with
    | none => return none
    | some typeArgs =>
      let subst := d.typeParams.zip typeArgs
      let types ← S.resolveTypes d.scope (declared.map (·.substitute subst))
      return some (types, some typeArgs)
  else if explicit.isEmpty then
    S.resolveSignature id
    return some (((← function? id).map (·.paramTypes)).getD [], none)
  else return none

/-- Whether and at what cost a candidate accepts the arguments. -/
def score? (argTypes explicit : List Ty) (id : EntityId) : Check (Option Viable) := do
  match ← function? id with
  | none => return none
  | some d =>
    match ← S.candidateTypes id d argTypes explicit with
    | none => return none
    | some (types, typeArgs) =>
      return (← totalCost? argTypes types).map fun score => ⟨id, score, typeArgs⟩

def viable (argTypes explicit : List Ty) : List EntityId → Check (List Viable)
  | [] => return []
  | id :: ids => do
    match ← S.score? argTypes explicit id with
    | some v => return v :: (← viable argTypes explicit ids)
    | none => viable argTypes explicit ids

def constructed (scope : ScopeId) (name : String) (typeArgs : List TypeExpr)
    (location : Location) : Check EntityId := do
  let p ← get
  let isType :=
    match (p.scopes.resolve? p.entities scope name).map fun id => (p.entities.get id).kind with
    | some (.object _) | some (.typeAlias _) => true
    | _ => false
  unless isType do fail location (.unresolvedType name)
  let type := if typeArgs.isEmpty then TypeExpr.named name location else .apply name typeArgs location
  match ← S.resolveType scope type with
  | .object object => return object
  | other => broken location (.notConstructible (← typeName other))

/-- Checks the initialisers of an object in the order they are written. -/
def initialisers (scope : ScopeId) (fields : List Field) : List (String × ExprId) → Check Unit
  | [] => return
  | (name, value) :: rest => do
    match fields.find? (·.name == name) with
    | none => fail (← node value).location (.unresolvedIdentifier name)
    | some field =>
      let type ← S.expr value scope
      expectAssignable type field.type (← node value).location
      initialisers scope fields rest

/-- Checks an object literal against the layout of the object it builds. -/
def construct (scope : ScopeId) (object : EntityId) (literal : ExprId)
    (given : List (String × ExprId)) (location : Location) : Check Unit := do
  let fields := ((← object? object).map (·.fields)).getD []
  S.initialisers scope fields given
  unless given.length = fields.length do
    fail location (.arityMismatch (← displayName object) given.length)
  modify fun p => { p with exprs := p.exprs.setType literal (.object object) }

def exprs (scope : ScopeId) : List ExprId → Check (List Ty)
  | [] => return []
  | id :: ids => do
    let type ← S.expr id scope
    return type :: (← exprs scope ids)

/-- The function, method or field a call means, and the type of its result. -/
def resolveTarget (location : Location) (scope : ScopeId) (name : String) (args : List ExprId)
    (typeArgs : List TypeExpr) : Check (CallTarget × Ty) := do
  let argTypes ← S.exprs scope args
  let explicit ← S.resolveTypes scope typeArgs
  let p ← get
  let all := candidates p scope name argTypes
  let fitting := all.filter fun id =>
    (p.entities.function? id).any (·.params.length = args.length)
  match ← S.viable argTypes explicit fitting with
  | [] =>
    match fieldAccess? (← get).entities name argTypes with
    | some (object, index, type) => return (.field object index, type)
    | none => reportNoMatch location name argTypes explicit all fitting
  | first :: rest =>
    let winner ← choose location name first rest
    let target ←
      match winner.typeArgs with
      | some typeArgs => S.instantiateFunction winner.id typeArgs location
      | none => pure winner.id
    let type ← S.returnType target location
    return (.function target, type)

/-- What a call with one object literal as its argument builds. -/
def resolveConstructor (location : Location) (scope : ScopeId) (name : String)
    (typeArgs : List TypeExpr) (literal : ExprId) (given : List (String × ExprId)) :
    Check (CallTarget × Ty) := do
  let object ← S.constructed scope name typeArgs location
  S.construct scope object literal given location
  return (.construct object, .object object)

def resolveCall (location : Location) (scope : ScopeId) (name : String) (args : List ExprId)
    (typeArgs : List TypeExpr) : Check (CallTarget × Ty) := do
  match args with
  | [arg] =>
    match (← node arg).shape with
    | .object given => S.resolveConstructor location scope name typeArgs arg given
    | _ => S.resolveTarget location scope name args typeArgs
  | _ => S.resolveTarget location scope name args typeArgs

end Solver

end FormCompiler
