import FormCompiler.Resolve.Type

/-! Matches: on values of a primitive type, or on the type of an object. In an arm that tests a type the
operand is known by a variable of that type. -/

namespace FormCompiler

open Check

def joined (a b : Ty) (location : Location) : Check Ty := do
  match ← join? a b with
  | some type => return type
  | none => fail location (.typeMismatch (← typeName a) (← typeName b))

/-- The type of the arms so far together with the next one. -/
def joinedArm (before : Option Ty) (next : Ty) (location : Location) : Check Ty :=
  match before with
  | some type => joined type next location
  | none => return next

def bindOperand (scope : ScopeId) (name : String) (type : Ty) (location : Location) :
    Check EntityId := do
  let id ← allocEntity name location (.var type false)
  register scope id
  return id

structure Operand where
  type : Ty
  /-- The object type that type patterns are tested against. -/
  object : Option EntityId
  /-- The name written for the operand in the match. -/
  explicit : Option String
  /-- The name arms with type patterns use, which may be that of a variable. -/
  name : Option String

/-- The operand of a match that tests types must be an object; of one that tests values, primitive. -/
def operandOf (m : Match) (type : Ty) : Check Operand := do
  let node ← node m.operand
  let name :=
    match m.bind, node.shape with
    | some name, _ => some name
    | none, .name name _ => some name
    | none, _ => none
  if m.isTypeGuard then
    match type with
    | .object object => return ⟨type, some object, m.bind, name⟩
    | other => fail node.location (.typeMismatch "an object type" (← typeName other))
  else
    let primitive :=
      match type with
      | .prim prim => prim ≠ .void
      | _ => false
    if !m.arms.isEmpty && !primitive then
      fail node.location (.typeMismatch "a primitive value" (← typeName type))
    return ⟨type, none, m.bind, name⟩

namespace Solver

variable (S : Solver)

/-- The type a pattern tests for, and the type of the variable in its arm. -/
def resolvePattern (scope : ScopeId) (operand : Operand) (arm : Arm) :
    Check (Option Ty × Option Ty) := do
  match arm.pattern, operand.object with
  | .literal literal, _ =>
    let type := Ty.prim literal.prim
    unless type = operand.type do
      fail arm.location (.typeMismatch (← typeName operand.type) (← typeName type))
    return (none, operand.explicit.map fun _ => operand.type)
  | .type t, some object =>
    let type ← S.resolveType scope t
    match type with
    | .object tested =>
      unless (← extends? tested object) || (← extends? object tested) do
        fail arm.location (.typeMismatch (← typeName operand.type) (← typeName type))
      return (some type, some type)
    | _ => fail arm.location (.typeMismatch "an object type" (← typeName type))
  | .type _, none => fail arm.location (.invalidPattern .objectNeeded)

/-- Resolves an arm in a scope of its own; gives the arm and the type of its body. -/
def resolveArm (scope : ScopeId) (operand : Operand) (arm : Arm) : Check (Arm × Ty) := do
  let inner ← pushScope scope .case
  let (patternType, bound) ← S.resolvePattern scope operand arm
  let binding ←
    match operand.name, bound with
    | some name, some type => some <$> bindOperand inner name type arm.location
    | _, _ => pure arm.binding
  let type ← S.expr arm.body inner
  return ({ arm with binding, patternType }, type)

/-- Resolves arms in order; gives them and the type of all arms so far. -/
def resolveArms (scope : ScopeId) (operand : Operand) (before : Option Ty) :
    List Arm → Check (List Arm × Option Ty)
  | [] => return ([], before)
  | arm :: arms => do
    let (arm, type) ← S.resolveArm scope operand arm
    let type ← joinedArm before type arm.location
    let (arms, all) ← resolveArms scope operand (some type) arms
    return (arm :: arms, all)

/-- Resolves the arm for all other cases, where only a written name is bound. -/
def resolveDefault (scope : ScopeId) (operand : Operand) (body : ExprId) :
    Check (Option EntityId × Ty) := do
  let inner ← pushScope scope .case
  let binding ←
    match operand.explicit with
    | some name => some <$> bindOperand inner name operand.type (← node body).location
    | none => pure none
  return (binding, ← S.expr body inner)

/-- Resolves a match; gives it with its slots filled, and its type. -/
def resolveMatch (location : Location) (scope : ScopeId) (m : Match) : Check (Match × Ty) := do
  let operand ← operandOf m (← S.expr m.operand scope)
  let (arms, type) ← S.resolveArms scope operand none m.arms
  match m.default with
  | none => return ({ m with arms }, type.getD .never)
  | some body =>
    let (defaultBinding, bodyType) ← S.resolveDefault scope operand body
    let type ← joinedArm type bodyType location
    return ({ m with arms, defaultBinding := defaultBinding.or m.defaultBinding }, type)

end Solver

/-- The objects at or below `operand` that no tested type covers. -/
def uncovered (operand : EntityId) (tested : List EntityId) : List EntityId → Check (List EntityId)
  | [] => return []
  | id :: ids => do
    let below ← extends? id operand
    let covered ← tested.anyM (extends? id)
    let rest ← uncovered operand tested ids
    return if below && !covered then id :: rest else rest

/-- Refuses a match on types without a default that some object would fall through. -/
def checkExhaustive (operand : EntityId) (tested : List EntityId) (location : Location) :
    Check Unit := do
  let concrete := (← get).entities.concreteObjects.map (·.1)
  let missing ← uncovered operand tested concrete
  unless missing.isEmpty do
    let entities := (← get).entities
    fail location
      (.nonExhaustiveMatch (entities.displayName operand) (missing.map entities.displayName))

/-- The types the arms test for, once they are known. -/
def testedTypes? (arms : List Arm) : Option (List EntityId) :=
  arms.mapM fun arm => arm.patternType.bind Ty.object?

/-- Checks a resolved node that is a match on types without a default. -/
def checkNode (id : ExprId) : Check Unit := do
  let p ← get
  let node := p.exprs.get id
  match node.shape with
  | .select m =>
    if m.default.isSome || !m.isTypeGuard then return
    match ((p.exprs.get m.operand).type).bind Ty.object?, testedTypes? m.arms with
    | some operand, some tested => checkExhaustive operand tested node.location
    | _, _ => return
  | _ => return

def checkNodes : List ExprId → Check Unit
  | [] => return
  | id :: ids => do
    checkNode id
    checkNodes ids

def checkCoverage : Check Unit := do
  checkNodes ((List.range (← get).exprs.size).map ExprId.mk)

end FormCompiler
