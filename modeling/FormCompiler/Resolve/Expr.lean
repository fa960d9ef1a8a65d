import FormCompiler.Resolve.Call
import FormCompiler.Resolve.Match

/-! Expressions: each gets a type, and the names in it get their meaning. -/

namespace FormCompiler

open Check

/-- The variable a name stands for, its type and whether it can be assigned. -/
def variableNamed (scope : ScopeId) (name : String) (location : Location) :
    Check (EntityId × Ty × Bool) := do
  let p ← get
  match p.scopes.resolve? p.entities scope name with
  | none => fail location (.unresolvedIdentifier name)
  | some id =>
    match (p.entities.get id).kind with
    | .var type mutable => return (id, type, mutable)
    | _ => broken location (.notAValue name)

namespace Solver

variable (S : Solver)

/-- The expressions of a block in order. The last one gives the type. -/
def resolveSequence (scope : ScopeId) (last : Ty) : List ExprId → Check Ty
  | [] => return last
  | id :: ids => do
    let type ← S.expr id scope
    resolveSequence scope type ids

def resolveCondition (scope : ScopeId) (test : ExprId) : Check Unit := do
  let type ← S.expr test scope
  expectAssignable type .bool (← node test).location

/-- The type of a new variable: the declared one, or that of its first value. -/
def definedType (scope : ScopeId) (declared : Option TypeExpr) (init : ExprId) : Check Ty := do
  let type ← S.expr init scope
  match declared with
  | none => return type
  | some t =>
    let wanted ← S.resolveType scope t
    expectAssignable type wanted (← node init).location
    return wanted

/-- The type of a node. Fills the slots of the node itself; its parts are asked about first. -/
def resolveShape (id : ExprId) (scope : ScopeId) (location : Location) : ExprShape → Check Ty
  | .literal literal => return .prim literal.prim
  | .name name _ => do
    let (binding, type, _) ← variableNamed scope name location
    setShape id (.name name (some binding))
    return type
  | .block body _ => do
    let inner ← pushScope scope .block
    let type ← S.resolveSequence inner .void body
    setShape id (.block body (some inner))
    return type
  | .define name declared init mutable _ => do
    let type ← S.definedType scope declared init
    unless type.hasValue do broken location (.variableType name (← typeName type))
    let var ← allocEntity name location (.var type mutable)
    register scope var
    setShape id (.define name declared init mutable (some var))
    return .void
  | .assign name value _ => do
    let (target, wanted, mutable) ← variableNamed scope name location
    unless mutable do fail location (.invalidAssignment name)
    let type ← S.expr value scope
    expectAssignable type wanted (← node value).location
    setShape id (.assign name value (some target))
    return .void
  | .call name args typeArgs _ => do
    let (target, type) ← S.resolveCall location scope name args typeArgs
    setShape id (.call name args typeArgs (some target))
    return type
  | .object _ => broken location .strayObjectLiteral
  | .cond test yes no => do
    S.resolveCondition scope test
    let inner ← pushScope scope .block
    let yesType ← S.expr yes inner
    match no with
    | none => return .void
    | some no =>
      let inner ← pushScope scope .block
      let noType ← S.expr no inner
      joined yesType noType location
  | .loop test body => do
    S.resolveCondition scope test
    let inner ← pushScope scope .block
    let _ ← S.expr body inner
    return .void
  | .select m => do
    let (m, type) ← S.resolveMatch location scope m
    setShape id (.select m)
    return type

/-- Finds the type of an expression and notes it. -/
def resolveExpr (id : ExprId) (scope : ScopeId) : Check Ty := do
  let node ← node id
  let type ← S.resolveShape id scope node.location node.shape
  modify fun p => { p with exprs := p.exprs.setType id type }
  return type

/-- Answers questions that need no more than `budget` nested ones. -/
def upTo : Nat → Solver
  | 0 =>
    { aliased := fun _ => throw ⟨.unfinished, none⟩
      object := fun _ => throw ⟨.unfinished, none⟩
      expr := fun _ _ => throw ⟨.unfinished, none⟩ }
  | budget + 1 =>
    { aliased := fun id => (upTo budget).resolveAlias id
      object := fun id => (upTo budget).resolveObject id
      expr := fun id scope => (upTo budget).resolveExpr id scope }

end Solver

end FormCompiler
