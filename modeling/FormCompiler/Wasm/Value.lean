import FormCompiler.Wasm.Module

/-! Values, the heap they refer to, and the ways a call can fail. -/

namespace FormCompiler.Wasm

/-- A reference is an address on the heap, or null. -/
inductive Value where
  | i32 (value : Int32)
  | i64 (value : Int64)
  | f32 (value : Binary32)
  | f64 (value : Binary64)
  | ref (address : Option Nat)
  deriving DecidableEq, Inhabited

inductive HeapObject where
  | struct (type : Nat) (fields : Array Value)
  | array (type : Nat) (elements : Array Value)
  deriving Inhabited

abbrev Heap := Array HeapObject

namespace HeapObject

def type : HeapObject → Nat
  | struct type _ => type
  | array type _ => type

def text : HeapObject → String
  | struct type _ => s!"<struct {type}>"
  | array _ elements => s!"<array[{elements.size}]>"

end HeapObject

namespace Value

/-- What a local or an array element holds at first. -/
def zero : ValueType → Value
  | .i32 => i32 0
  | .i64 => i64 0
  | .f32 => f32 ⟨0⟩
  | .f64 => f64 ⟨0⟩
  | .ref _ => ref none

def ofBool (b : Bool) : Value := i32 (if b then 1 else 0)

/-- A value as it is shown; the inside of an object is not. -/
def text (heap : Heap) : Value → String
  | i32 value => toString value.toInt
  | i64 value => toString value.toInt
  | f32 value => value.text
  | f64 value => value.text
  | ref none => "null"
  | ref (some address) =>
    match heap[address]? with
    | some object => object.text
    | none => "null"

end Value

/-- What makes a module impossible to run, found only when running it. -/
inductive Malformation where
  | globalValue (name : String)
  | noFunction (index : Nat)
  | noLocal (index : Nat)
  | noGlobal (index : Nat)
  | noField (index : Nat)
  | noOperand
  | escapedBranch (label : LabelId) (function : String)
  | notReference (found : String)
  | notIndex (found : String)
  | notInteger (found : String)
  | notArrayType (type : Nat)
  | fieldOfArray
  | elementOfStruct
  | writeToStruct
  | floatOperator (operator : BinOp)
  | operands (operator : BinOp) (type : NumType) (left right : String)
  deriving DecidableEq, Inhabited

namespace Malformation

def text : Malformation → String
  | globalValue name => s!"global `{name}` has no value"
  | noFunction index => s!"no function {index}"
  | noLocal index => s!"no local {index}"
  | noGlobal index => s!"no global {index}"
  | noField index => s!"no field {index}"
  | noOperand => "operand produced no value"
  | escapedBranch label function => s!"branch to label {label.index} escaped `{function}`"
  | notReference found => s!"expected a reference, found {found}"
  | notIndex found => s!"expected an i32, found {found}"
  | notInteger found => s!"eqz on {found}"
  | notArrayType type => s!"type {type} is not an array"
  | fieldOfArray => "struct.get on an array"
  | elementOfStruct => "array access on a struct"
  | writeToStruct => "array.set on a struct"
  | floatOperator operator => s!"`{operator.name}` on floats"
  | operands operator type left right =>
    s!"`{operator.name}` on {type.title} applied to {left} and {right}"

end Malformation

/-- Why a call ended without an answer. -/
inductive Trap where
  | unknownExport (name : String)
  | unknownImport (source : ImportName)
  | argumentCount (name : String) (expected found : Nat)
  | unreachable
  | nullReference
  | castFailure (type : Nat)
  | outOfBounds (index : Int32) (length : Nat)
  | divisionByZero
  | integerOverflow
  | callStackExhausted
  | malformed (fault : Malformation)
  deriving DecidableEq, Inhabited

namespace Trap

def message : Trap → String
  | unknownExport name => s!"no exported function named `{name}`"
  | unknownImport source => s!"no host function provided for import `{source.module}.{source.name}`"
  | argumentCount name expected found =>
    s!"`{name}` expects {expected} argument(s) but {found} were given"
  | unreachable => "unreachable executed"
  | nullReference => "null reference"
  | castFailure type => s!"cast to type {type} failed"
  | outOfBounds index length => s!"array index {index.toInt} out of bounds for length {length}"
  | divisionByZero => "integer division by zero"
  | integerOverflow => "integer overflow"
  | callStackExhausted => "call stack exhausted"
  | malformed fault => "malformed module: " ++ fault.text

end Trap

/-- An integer operator, on values read as whole numbers. `most` is the largest value of the type and
`wrap` brings a number into its range. -/
def integerOp (op : BinOp) (most : Int) (wrap : Int → Value) (a b : Int) : Except Trap Value :=
  match op with
  | .add => .ok (wrap (a + b))
  | .sub => .ok (wrap (a - b))
  | .mul => .ok (wrap (a * b))
  | .div =>
    if b = 0 then .error .divisionByZero
    else if most < a.tdiv b then .error .integerOverflow
    else .ok (wrap (a.tdiv b))
  | .rem => if b = 0 then .error .divisionByZero else .ok (wrap (a.tmod b))
  | .eq => .ok (.ofBool (a = b))
  | .ne => .ok (.ofBool (a ≠ b))
  | .lt => .ok (.ofBool (a < b))
  | .gt => .ok (.ofBool (b < a))
  | .le => .ok (.ofBool (a ≤ b))
  | .ge => .ok (.ofBool (b ≤ a))
  | .and => .ok (wrap (Int64.ofInt a &&& Int64.ofInt b).toInt)
  | .or => .ok (wrap (Int64.ofInt a ||| Int64.ofInt b).toInt)

structure FloatOps (α : Type) where
  add : α → α → α
  sub : α → α → α
  mul : α → α → α
  div : α → α → α
  eq : α → α → Bool
  lt : α → α → Bool
  le : α → α → Bool

def FloatOps.single : FloatOps Binary32 where
  add := Binary32.add
  sub := Binary32.sub
  mul := Binary32.mul
  div := Binary32.div
  eq := Binary32.eq
  lt := Binary32.lt
  le := Binary32.le

def FloatOps.double : FloatOps Binary64 where
  add := Binary64.add
  sub := Binary64.sub
  mul := Binary64.mul
  div := Binary64.div
  eq := Binary64.eq
  lt := Binary64.lt
  le := Binary64.le

def FloatOps.apply {α : Type} (ops : FloatOps α) (op : BinOp) (wrap : α → Value) (a b : α) :
    Except Trap Value :=
  match op with
  | .add => .ok (wrap (ops.add a b))
  | .sub => .ok (wrap (ops.sub a b))
  | .mul => .ok (wrap (ops.mul a b))
  | .div => .ok (wrap (ops.div a b))
  | .eq => .ok (.ofBool (ops.eq a b))
  | .ne => .ok (.ofBool !(ops.eq a b))
  | .lt => .ok (.ofBool (ops.lt a b))
  | .gt => .ok (.ofBool (ops.lt b a))
  | .le => .ok (.ofBool (ops.le a b))
  | .ge => .ok (.ofBool (ops.le b a))
  | .rem | .and | .or => .error (.malformed (.floatOperator op))

/-- An operator on two values, which must both have the operator's type. -/
def BinOp.apply (op : BinOp) (type : NumType) (heap : Heap) (left right : Value) :
    Except Trap Value :=
  match type, left, right with
  | .i32, .i32 a, .i32 b => integerOp op 0x7fffffff (fun n => .i32 (Int32.ofInt n)) a.toInt b.toInt
  | .i64, .i64 a, .i64 b => integerOp op 0x7fffffffffffffff (fun n => .i64 (Int64.ofInt n)) a.toInt b.toInt
  | .f32, .f32 a, .f32 b => FloatOps.single.apply op .f32 a b
  | .f64, .f64 a, .f64 b => FloatOps.double.apply op .f64 a b
  | type, left, right => .error (.malformed (.operands op type (left.text heap) (right.text heap)))

end FormCompiler.Wasm
