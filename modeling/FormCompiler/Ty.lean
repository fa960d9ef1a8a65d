import FormCompiler.Id

/-! Types of values. Object types are nominal: they name their entity, and an instance of a generic
object is an entity of its own. -/

namespace FormCompiler

inductive Prim where
  | i32
  | i64
  | f32
  | f64
  | bool
  | void
  deriving DecidableEq, Inhabited

namespace Prim

/-- In the order the type names are introduced. -/
def all : List Prim := [i32, i64, f32, f64, bool, void]

def name : Prim → String
  | i32 => "i32"
  | i64 => "i64"
  | f32 => "f32"
  | f64 => "f64"
  | bool => "bool"
  | void => "void"

def ofName? (text : String) : Option Prim := all.find? (·.name = text)

def isFloat : Prim → Bool
  | f32 | f64 => true
  | _ => false

end Prim

inductive Ty where
  | prim (prim : Prim)
  /-- An object type, never a generic definition. -/
  | object (id : EntityId)
  /-- A mutable array of fixed length. -/
  | array (element : Ty)
  /-- The type of an expression that does not end with a value of any kind. -/
  | never
  deriving DecidableEq, Inhabited

namespace Ty

def void : Ty := .prim .void
def bool : Ty := .prim .bool
def i32 : Ty := .prim .i32

/-- Whether expressions of the type leave a value. -/
def hasValue : Ty → Bool
  | .prim .void => false
  | .never => false
  | _ => true

def object? : Ty → Option EntityId
  | .object id => some id
  | _ => none

/-- The type in words, given the names of objects. -/
def nameWith (objectName : EntityId → String) : Ty → String
  | .prim p => p.name
  | .object id => objectName id
  | .array element => "FixedArray<" ++ element.nameWith objectName ++ ">"
  | .never => "never"

/-- The least type above two types, given the nearest common ancestor of two objects: `never` is
below everything, and types other than objects are only below themselves. -/
def join? (nearest : EntityId → EntityId → Option EntityId) (a b : Ty) : Option Ty :=
  if a = .never then some b
  else if b = .never then some a
  else if a = b then some a
  else
    match a, b with
    | .object x, .object y => (nearest x y).map .object
    | _, _ => none

end Ty

end FormCompiler
