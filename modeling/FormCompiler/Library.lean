import FormCompiler.Diagnostic
import FormCompiler.FileTree

/-! The standard library: source files that every program can import from. -/

namespace FormCompiler

structure SourceFile where
  path : String
  text : String
  deriving DecidableEq, Inhabited

namespace Library

/-- The part of a file name after its last dot; names that only start with a dot have none. -/
def extension? (name : String) : Option String :=
  let suffix := name.toList.reverse.takeWhile (· ≠ '.')
  match name.toList.reverse.dropWhile (· ≠ '.') with
  | _ :: _ :: _ => some (String.ofList suffix.reverse)
  | _ => none

def isSource (path : List String) : Bool :=
  match path.getLast? with
  | some name => extension? name = some "vast"
  | none => false

def readFiles : List (List String × ByteArray) → Except Diagnostic (List SourceFile)
  | [] => .ok []
  | (path, bytes) :: rest => do
    if isSource path then
      match decodeText? bytes with
      | none => .error ⟨.unreadableSource "stream did not contain valid UTF-8", none⟩
      | some text => return ⟨"/".intercalate path, text⟩ :: (← readFiles rest)
    else readFiles rest

def load (tree : FileTree) (root : String) : Except Diagnostic (List SourceFile) :=
  match tree.placeOf root with
  | .error _ => .error ⟨.missingLibrary root, none⟩
  | .ok place =>
    if tree.isDirectory place then readFiles (tree.walk place)
    else .error ⟨.missingLibrary root, none⟩

def ofLines (lines : List String) : String := String.join (lines.map (· ++ "\n"))

def arrayText : String := ofLines
  ["; Generic helpers over the builtin FixedArray<T>.",
   "",
   "(pub (fn ds_array_init (type_params T)",
   "  (parameters (: size i32))",
   "  (return_type (FixedArray T))",
   "  (new_array (type_args T) size)))",
   "",
   "(pub (fn get (type_params T)",
   "  (parameters (: array (FixedArray T)) (: index i32))",
   "  (return_type T)",
   "  (array_get (type_args T) array index)))",
   "",
   "(pub (fn set (type_params T)",
   "  (parameters (: array (FixedArray T)) (: index i32) (: value T))",
   "  (return_type void)",
   "  (array_set (type_args T) array index value)))",
   "",
   "(pub (fn len (type_params T)",
   "  (parameters (: array (FixedArray T)))",
   "  (return_type i32)",
   "  (array_len (type_args T) array)))"]

def mathText : String := ofLines
  ["; Numeric helpers, one overload per primitive type.",
   "",
   "(pub (fn max (parameters (: a i32) (: b i32)) (return_type i32) (if (> a b) a b)))",
   "(pub (fn max (parameters (: a i64) (: b i64)) (return_type i64) (if (> a b) a b)))",
   "(pub (fn max (parameters (: a f32) (: b f32)) (return_type f32) (if (> a b) a b)))",
   "(pub (fn max (parameters (: a f64) (: b f64)) (return_type f64) (if (> a b) a b)))",
   "",
   "(pub (fn min (parameters (: a i32) (: b i32)) (return_type i32) (if (< a b) a b)))",
   "(pub (fn min (parameters (: a i64) (: b i64)) (return_type i64) (if (< a b) a b)))",
   "(pub (fn min (parameters (: a f32) (: b f32)) (return_type f32) (if (< a b) a b)))",
   "(pub (fn min (parameters (: a f64) (: b f64)) (return_type f64) (if (< a b) a b)))",
   "",
   "(pub (fn abs (parameters (: x i32)) (return_type i32) (if (< x 0) (- 0 x) x)))",
   "(pub (fn abs (parameters (: x i64)) (return_type i64) (if (< x 0i64) (- 0i64 x) x)))",
   "(pub (fn abs (parameters (: x f32)) (return_type f32) (if (< x 0.0f32) (- 0.0f32 x) x)))",
   "(pub (fn abs (parameters (: x f64)) (return_type f64) (if (< x 0.0) (- 0.0 x) x)))"]

def shipped : List SourceFile := [⟨"array.vast", arrayText⟩, ⟨"math.vast", mathText⟩]

end Library

end FormCompiler
