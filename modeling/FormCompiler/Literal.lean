import FormCompiler.Ty
import FormCompiler.Number.Shortest

/-! Constants written in a program. -/

namespace FormCompiler

/-- A constant. A single-precision constant keeps the double it was read as and is narrowed when
code is emitted. -/
inductive Literal where
  | i32 (value : Int32)
  | i64 (value : Int64)
  | f32 (value : Binary64)
  | f64 (value : Binary64)
  | bool (value : Bool)
  deriving DecidableEq, Inhabited

namespace Literal

def prim : Literal → Prim
  | i32 _ => .i32
  | i64 _ => .i64
  | f32 _ => .f32
  | f64 _ => .f64
  | bool _ => .bool

end Literal

end FormCompiler
