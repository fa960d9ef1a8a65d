import FormCompiler.Number.Shortest

/-! Folded WebAssembly instructions: trees whose operands run from left to right before the
operation itself. Branch targets are names; they become relative depths in the flat form. -/

namespace FormCompiler.Wasm

inductive NumType where
  | i32
  | i64
  | f32
  | f64
  deriving DecidableEq, Inhabited

namespace NumType

def isFloat : NumType → Bool
  | f32 | f64 => true
  | _ => false

def name : NumType → String
  | i32 => "i32"
  | i64 => "i64"
  | f32 => "f32"
  | f64 => "f64"

def title : NumType → String
  | i32 => "I32"
  | i64 => "I64"
  | f32 => "F32"
  | f64 => "F64"

end NumType

/-- Types of values on the stack. References may be null and name a type of the module. -/
inductive ValueType where
  | i32
  | i64
  | f32
  | f64
  | ref (type : Nat)
  deriving DecidableEq, Inhabited

inductive BinOp where
  | add
  | sub
  | mul
  | div
  | rem
  | eq
  | ne
  | lt
  | gt
  | le
  | ge
  | and
  | or
  deriving DecidableEq, Inhabited

namespace BinOp

def isComparison : BinOp → Bool
  | eq | ne | lt | gt | le | ge => true
  | _ => false

def name : BinOp → String
  | add => "add"
  | sub => "sub"
  | mul => "mul"
  | div => "div"
  | rem => "rem"
  | eq => "eq"
  | ne => "ne"
  | lt => "lt"
  | gt => "gt"
  | le => "le"
  | ge => "ge"
  | and => "and"
  | or => "or"

/-- Whether the operator on integers depends on their sign. -/
def isSigned : BinOp → Bool
  | div | rem | lt | gt | le | ge => true
  | _ => false

end BinOp

/-- Names a block or loop that can be branched to. -/
structure LabelId where
  index : Nat
  deriving DecidableEq, Inhabited

inductive Instr where
  | i32Const (value : Int32)
  | i64Const (value : Int64)
  | f32Const (value : Binary32)
  | f64Const (value : Binary64)
  | localGet (index : Nat)
  | localSet (index : Nat) (value : Instr)
  | globalGet (index : Nat)
  | binary (op : BinOp) (type : NumType) (left right : Instr)
  | eqz (type : NumType) (value : Instr)
  | call (function : Nat) (args : List Instr)
  | block (label : LabelId) (result : Option ValueType) (body : List Instr)
  | loop (label : LabelId) (body : List Instr)
  | cond (result : Option ValueType) (test : Instr) (yes no : List Instr)
  | br (label : LabelId) (value : Option Instr)
  | brIf (label : LabelId) (test : Instr)
  /-- Branches to the target at the index, or to the default beyond the targets. -/
  | brTable (targets : List LabelId) (default : LabelId) (index : Instr)
  | ret (value : Option Instr)
  | drop (value : Instr)
  /-- Instructions one after another, without a frame of their own. -/
  | seq (body : List Instr)
  | unreachable
  | structNew (type : Nat) (fields : List Instr)
  | structGet (type field : Nat) (object : Instr)
  | refCast (type : Nat) (value : Instr)
  | arrayNewFixed (type : Nat) (values : List Instr)
  | arrayNewDefault (type : Nat) (length : Instr)
  | arrayGet (type : Nat) (array index : Instr)
  | arraySet (type : Nat) (array index value : Instr)
  | arrayLen (array : Instr)
  deriving Inhabited

end FormCompiler.Wasm
