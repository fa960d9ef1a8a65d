import FormCompiler.Resolve.Type

/-! Functions: signatures, bodies, return types, and instances of generic functions. -/

namespace FormCompiler

open Check

namespace Solver

variable (S : Solver)

def paramTypes (scope : ScopeId) : List Param → Check (List Ty)
  | [] => return []
  | param :: params => do
    let type ← S.resolveType scope param.declared
    unless type.hasValue do
      broken param.location (.parameterType param.name (← typeName type))
    return type :: (← paramTypes scope params)

def paramVars : List Param → List Ty → Check (List EntityId)
  | param :: params, type :: types => do
    let id ← allocEntity param.name param.location (.var type false)
    return id :: (← paramVars params types)
  | _, _ => return []

/-- The declared return type. A function of the host that declares none returns nothing. -/
def declaredReturn (d : FunctionDef) : Check (Option Ty) := do
  match d.returnExpr, d.body with
  | some t, _ => return some (← S.resolveType d.scope t)
  | none, .host _ _ => return some .void
  | none, _ => return none

def resolveSignature (id : EntityId) : Check Unit := do
  let e ← entity id
  match e.function? with
  | none => broken e.location (.notAFunction e.name)
  | some d =>
    if d.signature = .done then return
    let paramTypes ← S.paramTypes d.scope d.params
    let returnType ← S.declaredReturn d
    let paramVars ← if d.hasBody then paramVars d.params paramTypes else pure []
    modifyFunction id fun d => { d with paramTypes, paramVars, returnType, signature := .done }

def registerAll (scope : ScopeId) : List EntityId → Check Unit
  | [] => return
  | id :: ids => do
    register scope id
    registerAll scope ids

/-- What a function returns, given what it declares and the type of its body. -/
def bodyReturn (id : EntityId) (location : Location) (root : ExprId) (body : Ty) :
    Option Ty → Check Ty
  | some declared => do
    unless declared = .void do expectAssignable body declared (← node root).location
    return declared
  | none => do
    if body = .never then
      fail location (.unresolvedType s!"return type of `{← displayName id}`")
    return body

def resolveBody (id : EntityId) : Check Unit := do
  S.resolveSignature id
  let e ← entity id
  match e.function? with
  | none => return
  | some d =>
    unless d.bodyStage = .pending do return
    match d.body with
    | .expr _ root =>
      let scope ← pushScope d.scope .function
      modifyFunction id fun d => { d with bodyStage := .inProgress, bodyScope := some scope }
      registerAll scope d.paramVars
      let body ← S.expr root scope
      let returnType ← bodyReturn id e.location root body d.returnType
      modifyFunction id fun d => { d with returnType := some returnType, bodyStage := .done }
    | _ => modifyFunction id fun d => { d with bodyStage := .done }

/-- The return type of a function, from its body if need be. -/
def returnType (id : EntityId) (location : Location) : Check Ty := do
  S.resolveSignature id
  let unresolved : Check Ty := do
    fail location (.unresolvedType s!"return type of `{← displayName id}`")
  match ← function? id with
  | none => unresolved
  | some d =>
    match d.returnType with
    | some type => return type
    | none =>
      if d.bodyStage = .inProgress then unresolved
      else
        S.resolveBody id
        match (← function? id).bind (·.returnType) with
        | some type => return type
        | none => unresolved

def cloneBody (subst : Subst) : FunctionBody → Check FunctionBody
  | .expr first root => modifyGet fun p =>
    let ((first, root), exprs) := p.exprs.cloneRange first root subst
    (.expr first root, { p with exprs })
  | body => return body

/-- The instance of a generic function for some arguments. It is kept once it has a signature, so that
calls in its own body find it. -/
def instantiateFunction (generic : EntityId) (args : List Ty) (location : Location) :
    Check EntityId := do
  let e ← entity generic
  match e.function? with
  | none => broken location (.notAFunction e.name)
  | some d =>
    expectArity e.name d.typeParams.length args.length location
    match cached? d.instances args with
    | some id => return id
    | none =>
      enterInstance generic args location
      let subst := d.typeParams.zip args
      let body ← cloneBody subst d.body
      let id ← allocEntity e.name e.location <| .function {
        scope := d.scope
        appliedArgs := args
        genericOf := some generic
        params := d.params.map fun p => { p with declared := p.declared.substitute subst }
        returnExpr := d.returnExpr.map (·.substitute subst)
        body }
      leavingDepth do
        leavingKey (S.resolveSignature id)
        modifyFunction generic fun d => { d with instances := d.instances ++ [(args, id)] }
        S.resolveBody id
      return id

def instantiate (generic : EntityId) (args : List Ty) (location : Location) : Check EntityId := do
  if (← entity generic).isFunction then S.instantiateFunction generic args location
  else S.instantiateObject generic args location

end Solver

end FormCompiler
