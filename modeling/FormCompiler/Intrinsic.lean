import FormCompiler.Ty
import FormCompiler.Wasm.Instr

/-! Operations the compiler provides as functions, and the operators among them. -/

namespace FormCompiler

open Wasm (BinOp NumType)

inductive Intrinsic where
  | binary (op : BinOp) (type : NumType)
  | not
  | newArray
  | arrayGet
  | arraySet
  | arrayLen
  deriving DecidableEq, Inhabited

/-- How operands of a primitive type are represented. -/
def Prim.numType? : Prim → Option NumType
  | .i32 | .bool => some .i32
  | .i64 => some .i64
  | .f32 => some .f32
  | .f64 => some .f64
  | .void => none

/-- An operator under the name programs use. -/
structure Operator where
  name : String
  op : BinOp
  /-- The operand types it is defined for. -/
  operands : List Prim
  deriving DecidableEq, Inhabited

namespace Operator

def numeric : List Prim := [.i32, .i64, .f32, .f64]
def integer : List Prim := [.i32, .i64]
def equatable : List Prim := [.i32, .i64, .f32, .f64, .bool]

def all : List Operator :=
  [⟨"+", .add, numeric⟩, ⟨"-", .sub, numeric⟩, ⟨"*", .mul, numeric⟩, ⟨"/", .div, numeric⟩,
   ⟨"%", .rem, integer⟩, ⟨"<", .lt, numeric⟩, ⟨">", .gt, numeric⟩, ⟨"<=", .le, numeric⟩,
   ⟨">=", .ge, numeric⟩, ⟨"==", .eq, equatable⟩, ⟨"!=", .ne, equatable⟩, ⟨"and", .and, [.bool]⟩,
   ⟨"or", .or, [.bool]⟩]

def ofName? (name : String) : Option Operator := all.find? (·.name = name)

def result (operator : Operator) (operand : Prim) : Prim :=
  if operator.op.isComparison then .bool else operand

end Operator

end FormCompiler
