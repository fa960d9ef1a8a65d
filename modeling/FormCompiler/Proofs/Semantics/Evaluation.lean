import FormCompiler.Program
import FormCompiler.Wasm.Machine

/-! What a checked program means. Expressions are evaluated where they stand in the arena: variables hold values,
objects and arrays lie in cells, a call runs the body of the function it was resolved to. How deep calls may nest
and how many rounds a loop may take are arguments; an evaluation that runs out of either says so. -/

namespace FormCompiler

open Wasm (HostCall ImportName Trap Value ValueType)

namespace Literal

def value : Literal → Value
  | i32 n => .i32 n
  | i64 n => .i64 n
  | f32 x => .f32 x.toBinary32
  | f64 x => .f64 x
  | bool b => .ofBool b

/-- Whether a value is equal to a constant, as numbers are: NaN equals nothing, and the zeros are equal. -/
def equals : Literal → Value → Bool
  | i32 n, .i32 m => m = n
  | i64 n, .i64 m => m = n
  | f32 x, .f32 y => y.eq x.toBinary32
  | f64 x, .f64 y => y.eq x
  | bool b, .i32 m => m = if b then 1 else 0
  | _, _ => false

end Literal

def Ty.zero : Ty → Value
  | .prim .i64 => .i64 0
  | .prim .f32 => .f32 ⟨0⟩
  | .prim .f64 => .f64 ⟨0⟩
  | .prim _ => .i32 0
  | .object _ | .array _ | .never => .ref none

namespace Program

def layout (p : Program) (object : EntityId) : List Field := ((p.entities.object? object).map (·.fields)).getD []

/-- Whether objects of the first type are objects of the second. -/
def extends? (p : Program) (type ancestor : EntityId) : Bool := (p.ancestry.extends? p.entities type ancestor).1

end Program

namespace Semantics

/-- What lies at an address. -/
inductive Cell where
  /-- Nothing of the program's. -/
  | reserved
  | object (type : EntityId) (fields : List Value)
  | array (element : Ty) (values : Array Value)
  deriving Inhabited

/-- What outlives a call: all cells, the calls of the host so far, and what the host keeps between them. -/
structure World where
  cells : Array Cell := #[]
  log : Array HostCall := #[]
  memory : List (ValueType × Value) := []

/-- Why an evaluation ends without a result. -/
inductive Halt where
  | trap (cause : Trap)
  /-- Calls nest too deep. -/
  | exhausted
  /-- A loop takes too many rounds. -/
  | unfinished
  /-- Something that checking rules out. -/
  | stuck
  deriving DecidableEq

/-- What the expressions of one activation work on. -/
structure State where
  vars : EntityId → Value
  world : World

abbrev Eval := EStateM Halt State

abbrev Between := EStateM Halt World

/-- Functions of the host. -/
abbrev Hosts := ImportName → Option (List Value → Between (Option Value))

/-- What an activation needs of its surroundings. -/
structure Scene where
  program : Program
  /-- How many rounds a loop may take. -/
  rounds : Nat
  /-- Whether calls may nest one deeper. Choosing an arm takes that much. -/
  room : Bool
  /-- Calls a function of the program. -/
  invoke : EntityId → List Value → Between (Option Value)

namespace Eval

def stuck {α : Type} : Eval α := throw .stuck

def trap {α : Type} (cause : Trap) : Eval α := throw (.trap cause)

def present : Option Value → Eval Value
  | some value => return value
  | none => stuck

def int : Value → Eval Int32
  | .i32 n => return n
  | _ => stuck

def computed : Except Trap Value → Eval Value
  | .ok value => return value
  | .error (.malformed _) => stuck
  | .error cause => trap cause

def follow : Value → Eval (Nat × Cell)
  | .ref (some address) => do
    match (← get).world.cells[address]? with
    | some cell => return (address, cell)
    | none => stuck
  | .ref none => trap .nullReference
  | _ => stuck

def elements (address : Nat) : Eval (Ty × Array Value) := do
  match (← get).world.cells[address]? with
  | some (.array element values) => return (element, values)
  | _ => stuck

def place (index : Int32) (length : Nat) : Eval Nat :=
  if 0 ≤ index.toInt ∧ index.toInt < length then return index.toInt.toNat
  else trap (.outOfBounds index length)

def alloc (cell : Cell) : Eval (Option Value) := fun s =>
  .ok (some (.ref (some s.world.cells.size))) { s with world := { s.world with cells := s.world.cells.push cell } }

def write (address : Nat) (cell : Cell) : Eval Unit :=
  modify fun s => { s with world := { s.world with cells := s.world.cells.setIfInBounds address cell } }

def assign (var : EntityId) (value : Value) : Eval Unit :=
  modify fun s => { s with vars := fun other => if other = var then value else s.vars other }

def call (scene : Scene) (function : EntityId) (args : List Value) : Eval (Option Value) := fun s =>
  match scene.invoke function args s.world with
  | .ok value world => .ok value { s with world }
  | .error halt world => .error halt { s with world }

end Eval

open Eval

section Nodes

variable (scene : Scene) (part : ExprId → Eval (Option Value))

def operand (id : ExprId) : Eval Value := do present (← part id)

def operands : List ExprId → Eval (List Value)
  | [] => return []
  | id :: ids => do
    let value ← operand part id
    return value :: (← operands ids)

def sequence (last : Option Value) : List ExprId → Eval (Option Value)
  | [] => return last
  | id :: ids => do sequence (← part id) ids

/-- A provided operation. An array is looked at before its index is worked out. -/
def operation (op : Intrinsic) (element : Option Ty) (args : List ExprId) : Eval (Option Value) :=
  match op, args with
  | .binary op type, [left,right] => do
    let left ← operand part left
    let right ← operand part right
    return some (← computed (op.apply type #[] left right))
  | .not, [value] => do return some (.ofBool ((← int (← operand part value)) = 0))
  | .newArray, [length] => do
    let length ← int (← operand part length)
    match element with
    | none => stuck
    | some element =>
      if length.toInt < 0 then trap (.outOfBounds length 0)
      else alloc (.array element (Array.replicate length.toInt.toNat element.zero))
  | .arrayGet, [array,index] => do
    let (address, _) ← follow (← operand part array)
    let index ← int (← operand part index)
    let (_, values) ← elements address
    let place ← place index values.size
    present values[place]?
  | .arraySet, [array,index,value] => do
    let (address, _) ← follow (← operand part array)
    let index ← int (← operand part index)
    let value ← operand part value
    let (element, values) ← elements address
    let place ← place index values.size
    write address (.array element (values.setIfInBounds place value))
    return none
  | .arrayLen, [array] => do
    let (address, _) ← follow (← operand part array)
    let (_, values) ← elements address
    if values.size < 0x80000000 then return some (.i32 (Int32.ofNat values.size)) else trap .integerOverflow
  | _, _ => stuck

def initialisers (given : List (String × ExprId)) : List Field → Eval (List Value)
  | [] => return []
  | field :: fields => do
    match given.lookup field.name with
    | some id =>
      let value ← operand part id
      return value :: (← initialisers given fields)
    | none => stuck

def call (args : List ExprId) : CallTarget → Eval (Option Value)
  | .function callee =>
    match scene.program.entities.function? callee with
    | none => stuck
    | some d =>
      match d.intrinsic? with
      | some op => operation part op d.appliedArgs.head? args
      | none => do Eval.call scene callee (← operands part args)
  | .construct object =>
    match args with
    | [literal] =>
      match (scene.program.exprs.get literal).shape with
      | .object given => do alloc (.object object (← initialisers part given (scene.program.layout object)))
      | _ => stuck
    | _ => stuck
  | .field _ index =>
    match args with
    | [arg] => do
      match ← follow (← operand part arg) with
      | (_, .object _ fields) => present fields[index]?
      | _ => stuck
    | _ => stuck

/-- The expression in a branch or an arm, whose value may not be wanted. -/
def branch (keep : Bool) (id : ExprId) : Eval (Option Value) := do
  let value ← part id
  return if keep then value else none

def otherwise (keep : Bool) : Option ExprId → Eval (Option Value)
  | some id => branch part keep id
  | none => return none

def arm (keep : Bool) (value : Value) (binding : Option EntityId) (body : ExprId) : Eval (Option Value) :=
  match binding with
  | none => branch part keep body
  | some var => do
    assign var value
    branch part keep body

/-- The first arm that fires, or the one for all other cases. -/
def choose (keep : Bool) (m : Match) (value : Value) (fires : Arm → Bool) : Eval (Option Value) :=
  if scene.room then
    match m.arms.find? fires with
    | some case => arm part keep value case.binding case.body
    | none =>
      match m.default with
      | some body => arm part keep value m.defaultBinding body
      | none => trap .unreachable
  else throw .exhausted

/-- A match. Types are compared with that of the object, constants with the value. -/
def select (keep : Bool) (m : Match) : Eval (Option Value) := do
  let value ← operand part m.operand
  if m.isTypeGuard then
    match ← follow value with
    | (_, .object type _) =>
      choose scene part keep m value fun case =>
        match case.patternType with
        | some (.object ancestor) => scene.program.extends? type ancestor
        | _ => false
    | _ => stuck
  else
    choose scene part keep m value fun case =>
      match case.pattern with
      | .literal l => l.equals value
      | .type _ => false

def loop (test body : ExprId) : Nat → Eval (Option Value)
  | 0 => throw .unfinished
  | rounds + 1 => do
    if (← int (← operand part test)) ≠ 0 then
      let _ ← part body
      loop test body rounds
    else return none

def node (id : ExprId) : Eval (Option Value) :=
  let keep := (scene.program.exprs.typeOf id).hasValue
  match (scene.program.exprs.get id).shape with
  | .literal l => return some l.value
  | .name _ (some var) => do return some ((← get).vars var)
  | .block body _ => sequence part none body
  | .define _ _ init _ (some var) | .assign _ init (some var) => do
    assign var (← operand part init)
    return none
  | .call _ args _ (some target) => call scene part args target
  | .cond test yes no => do
    if (← int (← operand part test)) ≠ 0 then branch part keep yes else otherwise part keep no
  | .loop test body => loop part test body scene.rounds
  | .select m => select scene part keep m
  | _ => stuck

end Nodes

/-- The value of an expression whose parts nest at most `depth` deep. -/
def evalWithin (scene : Scene) : Nat → ExprId → Eval (Option Value)
  | 0, _ => stuck
  | depth + 1, id => node scene (evalWithin scene depth) id

/-- The value of an expression. Parts come before the whole, which bounds how deep they nest. -/
def eval (scene : Scene) (id : ExprId) : Eval (Option Value) := evalWithin scene (id.index + 1) id

section Functions

variable (p : Program) (hosts : Hosts)

/-- What the variables of an activation hold at first: the arguments, and noughts. -/
def bindings (d : FunctionDef) (args : List Value) (var : EntityId) : Value :=
  match (d.paramVars.zip args).lookup var with
  | some value => value
  | none =>
    match (p.entities.get var).kind with
    | .var type _ => type.zero
    | _ => .ref none

/-- Asks the host. The call is noted before it is answered. -/
def ask (source : ImportName) (args : List Value) : Between (Option Value) := do
  match hosts source with
  | none => throw (.trap (.unknownImport source))
  | some host =>
    modify fun w => { w with log := w.log.push ⟨source,args⟩ }
    host args

def runBody (scene : Scene) (d : FunctionDef) (root : ExprId) (args : List Value) : Between (Option Value) := fun w =>
  match eval scene root ⟨bindings scene.program d args,w⟩ with
  | .ok value s => .ok (if d.returnType.any (·.hasValue) then value else none) s.world
  | .error halt s => .error halt s.world

/-- Finds a function. Functions of the host are asked; `enter` runs the others. -/
def dispatch (enter : FunctionDef → ExprId → List Value → Between (Option Value)) (function : EntityId)
    (args : List Value) : Between (Option Value) :=
  match p.entities.function? function with
  | none => throw .stuck
  | some d =>
    if args.length ≠ d.paramTypes.length then throw .stuck
    else
      match d.body with
      | .host module name => ask hosts ⟨module,name⟩ args
      | .expr _ root => enter d root args
      | .intrinsic _ => throw .stuck

def callWithin (rounds : Nat) : Nat → EntityId → List Value → Between (Option Value)
  | 0 => dispatch p hosts fun _ _ _ => throw .exhausted
  | levels + 1 => dispatch p hosts (runBody ⟨p,rounds,levels ≠ 0,callWithin rounds levels⟩)

end Functions

end Semantics

end FormCompiler
