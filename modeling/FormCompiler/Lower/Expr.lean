import FormCompiler.Lower.Match

/-! Expressions. The code of an expression leaves its value, if it has one. -/

namespace FormCompiler

open Wasm (Instr)

namespace Lower

def elementArray (element : Option Ty) (location : Location) : Lower Nat :=
  match element with
  | some type => arrayIndex type
  | none => broken location .arrayIntrinsicElement

def intrinsic (op : Intrinsic) (element : Option Ty) (args : List Instr) (location : Location) :
    Lower Instr := do
  match op, args with
  | .binary op type, [left, right] => return .binary op type left right
  | .not, [value] => return .eqz .i32 value
  | .newArray, [length] => return .arrayNewDefault (← elementArray element location) length
  | .arrayGet, [array, index] => return .arrayGet (← elementArray element location) array index
  | .arraySet, [array, index, value] =>
    return .arraySet (← elementArray element location) array index value
  | .arrayLen, [array] => return .arrayLen array
  | _, _ => broken location .intrinsicArity

variable (part : ExprId → Lower Instr)

def parts : List ExprId → Lower (List Instr)
  | [] => return []
  | id :: ids => do
    let code ← part id
    return code :: (← parts ids)

/-- The expressions of a block. Only the last one keeps its value. -/
def sequence : List ExprId → Lower (List Instr)
  | [] => return []
  | id :: ids => do
    let code ← discardUnless ids.isEmpty id (← part id)
    return code :: (← sequence ids)

def call (callee : EntityId) (args : List ExprId) (location : Location) : Lower Instr := do
  let args ← parts part args
  match (← read).entities.function? callee with
  | none => broken location .calleeNotAFunction
  | some d =>
    match d.intrinsic? with
    | some op => intrinsic op d.appliedArgs.head? args location
    | none => return .call (← functionIndex callee) args

/-- The initialisers in the order of the layout. -/
def fieldValues (given : List (String × ExprId)) (location : Location) :
    List Field → Lower (List Instr)
  | [] => return []
  | field :: fields => do
    match given.lookup field.name with
    | none => throw (.here location (.unresolvedIdentifier field.name))
    | some value =>
      let code ← part value
      return code :: (← fieldValues given location fields)

/-- A new object: its ancestors, then its fields. -/
def newObject (object : EntityId) (literal : ExprId) (location : Location) : Lower Instr := do
  match ((← read).exprs.get literal).shape with
  | .object given =>
    let layout := (((← read).entities.object? object).map (·.fields)).getD []
    let ancestors := Instr.globalGet (← chainGlobal object)
    let values ← fieldValues part given location layout
    return .structNew (← structIndex object) (ancestors :: values)
  | _ => broken location .constructorLiteral

def target (location : Location) (args : List ExprId) : Option CallTarget → Lower Instr
  | some (.function callee) => call part callee args location
  | some (.construct object) =>
    match args with
    | [literal] => newObject part object literal location
    | _ => broken location .constructorLiteral
  | some (.field object index) =>
    match args with
    | [arg] => do
      let value ← part arg
      return .structGet (← structIndex object) (index + 1) value
    | _ => broken location .fieldAccessArity
  | none => broken location .callUnresolved

def cond (type : Ty) (test yes : ExprId) (no : Option ExprId) : Lower Instr := do
  let test ← part test
  let result ← valueType type
  let yes ← discardUnless result.isSome yes (← part yes)
  let no ←
    match no with
    | some no => pure [← discardUnless result.isSome no (← part no)]
    | none => pure []
  return .cond result test [yes] no

def loop (test body : ExprId) : Lower Instr := do
  let exit ← freshLabel
  let top ← freshLabel
  let test ← part test
  let body ← discardUnless false body (← part body)
  return .block exit none [.loop top [.brIf exit (.eqz .i32 test), body, .br top none]]

def node (id : ExprId) : Lower Instr := do
  let e := (← read).exprs.get id
  match e.shape with
  | .literal value => return literal value
  | .name _ binding => return .localGet (← varLocal binding e.location)
  | .block body _ => return .seq (← sequence part body)
  | .define _ _ init _ entity =>
    let value ← part init
    match entity with
    | some var => return .localSet (← bindVar var) value
    | none => broken e.location .unboundVariable
  | .assign _ value var =>
    let index ← varLocal var e.location
    return .localSet index (← part value)
  | .call _ args _ meaning => target part e.location args meaning
  | .object _ => broken e.location .strayObjectLiteral
  | .cond test yes no => cond part (← typeOf id) test yes no
  | .loop test body => loop part test body
  | .select m => select part m (← typeOf id) e.location

/-- The code of an expression whose parts nest at most `depth` deep. -/
def exprWithin : Nat → ExprId → Lower Instr
  | 0, id => do broken ((← read).exprs.get id).location .bodyTooDeep
  | depth + 1, id => node (exprWithin depth) id

/-- The code of an expression. Parts come before the whole, which bounds how deep they nest. -/
def expr (id : ExprId) : Lower Instr := exprWithin (id.index + 1) id

end Lower

end FormCompiler
