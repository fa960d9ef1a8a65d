import FormCompiler.Resolve.Expr

/-! Resolution of a whole program: objects and aliases first, so that bodies see finished types; then
methods; then the bodies of all functions that are not generic; at last the coverage of matches. -/

namespace FormCompiler

namespace Program

/-- How deep questions can nest: on the way to an answer each function, object and alias is entered at
most once, apart from the limited nesting of instances, and each body is entered from its root down. -/
def budget (p : Program) : Nat := (p.entities.size + 200) * (p.exprs.size + 10)

def solver (p : Program) : Solver := Solver.upTo p.budget

end Program

open Check

namespace Solver

variable (S : Solver)

/-- Resolves an object or an alias; nothing for other entities. -/
def resolveTypeEntity (id : EntityId) : Check Unit := do
  match (← entity id).kind with
  | .object d => unless d.isGeneric do S.object id
  | .typeAlias _ => let _ ← S.aliased id
  | _ => return

def resolveTypeEntities : List EntityId → Check Unit
  | [] => return
  | id :: ids => do
    S.resolveTypeEntity id
    resolveTypeEntities ids

/-- The object whose methods an `impl` block adds, a generic definition for its instances. -/
def implOwner (scope : ScopeId) (name : String) (location : Location) : Check EntityId := do
  let (id, kind) ← typeEntity scope name location
  let object ←
    match kind with
    | .object _ => pure id
    | .typeAlias _ =>
      match ← S.aliased id with
      | .object object => pure object
      | _ => fail location (.unresolvedType name)
    | _ => fail location (.unresolvedType name)
  return ((← object? object).bind (·.genericOf)).getD object

def attach (block : PendingImpl) : Check Unit := do
  match block.target with
  | .named name location | .apply name _ location =>
    let owner ← S.implOwner block.scope name location
    modifyObject owner fun d => { d with methods := d.methods ++ block.methods }
  | .resolved _ => return

def attachEach : List PendingImpl → Check Unit
  | [] => return
  | block :: blocks => do
    S.attach block
    attachEach blocks

def attachMethods : Check Unit := do
  let blocks := (← get).pendingImpls
  modify fun p => { p with pendingImpls := [] }
  S.attachEach blocks

/-- Resolves a function that is neither generic nor provided. -/
def resolveFunctionEntity (id : EntityId) : Check Unit := do
  match ← function? id with
  | some d => unless d.isGeneric || d.intrinsic?.isSome do S.resolveBody id
  | none => return

def resolveFunctionEntities : List EntityId → Check Unit
  | [] => return
  | id :: ids => do
    S.resolveFunctionEntity id
    resolveFunctionEntities ids

end Solver

def resolveProgram : Check Unit := do
  let p ← get
  let S := p.solver
  S.resolveTypeEntities p.entities.ids
  S.attachMethods
  S.resolveFunctionEntities p.entities.ids
  checkCoverage

end FormCompiler
