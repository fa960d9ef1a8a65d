import FormCompiler.Program
import FormCompiler.Wasm.Module

/-! What code generation keeps while it works: the module so far, the places of types and functions in
it, the functions that still need a body, and the storage of the function at hand. -/

namespace FormCompiler

open Wasm (Instr LabelId Module ValueType)

structure Frame where
  params : Nat := 0
  locals : List ValueType := []
  vars : List (EntityId × Nat) := []
  deriving Inhabited

structure Emission where
  module : Module := {}
  structs : List (EntityId × Nat) := []
  /-- The global that holds each object's ancestors. -/
  chains : List (EntityId × Nat) := []
  /-- The type of arrays of ancestors. -/
  idsArray : Option Nat := none
  funcs : List (EntityId × Nat) := []
  /-- Declared functions without a body, first come first served. -/
  queue : List EntityId := []
  extendsFunction : Option Nat := none
  /-- How many matches on values were lowered. -/
  matchIndexes : Nat := 0
  frame : Frame := {}
  deriving Inhabited

/-- Steps of code generation. The program itself stays as it is. -/
abbrev Lower := ReaderT Program (StateT Emission (Except Diagnostic))

namespace Lower

def broken {α : Type} (location : Location) (fault : SemanticFault) : Lower α :=
  throw (.rule location fault)

def impossible {α : Type} (fault : SemanticFault) : Lower α := broken .builtin fault

def displayName (id : EntityId) : Lower String := return (← read).entities.displayName id

def typeOf (id : ExprId) : Lower Ty := return (← read).exprs.typeOf id

/-- Changes the module and gives what the change gives. -/
def modifyModule {α : Type} (f : Module → α × Module) : Lower α :=
  modifyGet fun s =>
    let (a, module) := f s.module
    (a, { s with module })

def freshLabel : Lower LabelId := modifyModule (·.freshLabel)

def structIndex (object : EntityId) : Lower Nat := do
  match (← get).structs.lookup object with
  | some index => return index
  | none => impossible (.structMissing (← displayName object))

def chainGlobal (object : EntityId) : Lower Nat := do
  match (← get).chains.lookup object with
  | some index => return index
  | none => impossible (.chainMissing (← displayName object))

def idsArray : Lower Nat := do
  match (← get).idsArray with
  | some index => return index
  | none => impossible .chainsUnavailable

def arrayOf : Option ValueType → Lower Nat
  | some element => modifyModule (·.arrayType element true)
  | none => impossible .arrayElement

/-- How values of a type are represented; nothing for types without values. -/
def valueType : Ty → Lower (Option ValueType)
  | .prim .i32 | .prim .bool => return some .i32
  | .prim .i64 => return some .i64
  | .prim .f32 => return some .f32
  | .prim .f64 => return some .f64
  | .prim .void | .never => return none
  | .object id => return some (.ref (← structIndex id))
  | .array element => do return some (.ref (← arrayOf (← valueType element)))

def arrayIndex (element : Ty) : Lower Nat := do arrayOf (← valueType element)

/-- How values of a type are represented, where there must be values. -/
def storedType (type : Ty) (fault : SemanticFault) : Lower ValueType := do
  match ← valueType type with
  | some stored => return stored
  | none => impossible fault

def storedTypes (fault : SemanticFault) : List Ty → Lower (List ValueType)
  | [] => return []
  | type :: types => do
    let stored ← storedType type fault
    return stored :: (← storedTypes fault types)

/-- The index of a function. It is declared when it is first asked for, and its body comes later. -/
def functionIndex (id : EntityId) : Lower Nat := do
  match (← get).funcs.lookup id with
  | some index => return index
  | none =>
    match (← read).entities.function? id with
    | none => impossible .calleeNotAFunction
    | some d =>
      let params ← storedTypes .parameterValue d.paramTypes
      let result ← valueType (d.returnType.getD .void)
      let name := s!"{← displayName id}_{id.index}"
      let index ←
        match d.body with
        | .host module source => modifyModule (·.importFunc name ⟨module, source⟩ params result)
        | _ =>
          let index ← modifyModule (·.declareFunc name params result)
          modify fun s => { s with queue := s.queue ++ [id] }
          pure index
      modify fun s => { s with funcs := (id, index) :: s.funcs }
      return index

def newLocal (type : ValueType) : Lower Nat :=
  modifyGet fun s =>
    let locals := s.frame.locals ++ [type]
    (s.frame.params + s.frame.locals.length, { s with frame := { s.frame with locals } })

def bindVar (id : EntityId) : Lower Nat := do
  match ((← read).entities.get id).kind with
  | .var type _ =>
    let slot ← newLocal (← storedType type .variableValue)
    modify fun s => { s with frame := { s.frame with vars := (id, slot) :: s.frame.vars } }
    return slot
  | _ => impossible .bindingNotAVariable

def varLocal (id : Option EntityId) (location : Location) : Lower Nat := do
  let vars := (← get).frame.vars
  match id.bind fun id => vars.lookup id with
  | some index => return index
  | none => broken location .variableStorage

/-- Throws the value of an expression away, if it has one and it is not wanted. -/
def discardUnless (keep : Bool) (id : ExprId) (code : Instr) : Lower Instr := do
  if !keep && (← typeOf id).hasValue then return .drop code else return code

def runtimeId (object : EntityId) : Int32 := Int32.ofNat object.index

def literal : Literal → Instr
  | .i32 value => .i32Const value
  | .i64 value => .i64Const value
  | .f32 value => .f32Const value.toBinary32
  | .f64 value => .f64Const value
  | .bool value => .i32Const (if value then 1 else 0)

end Lower

end FormCompiler
