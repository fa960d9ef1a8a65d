import FormCompiler.Diagnostic
import FormCompiler.Wasm.Module

/-! Stack code: instructions in the order the binary holds them, operands before operators, branch
targets as the number of frames to leave. -/

namespace FormCompiler.Wasm

inductive FlatInstr where
  | i32Const (value : Int32)
  | i64Const (value : Int64)
  | f32Const (value : Binary32)
  | f64Const (value : Binary64)
  | localGet (index : Nat)
  | localSet (index : Nat)
  | globalGet (index : Nat)
  | binary (op : BinOp) (type : NumType)
  | eqz (type : NumType)
  | call (function : Nat)
  | block (result : Option ValueType)
  | loop
  | cond (result : Option ValueType)
  | otherwise
  /-- Closes the innermost frame. -/
  | close
  | br (depth : Nat)
  | brIf (depth : Nat)
  | brTable (depths : List Nat) (default : Nat)
  | ret
  | drop
  | unreachable
  | structNew (type : Nat)
  | structGet (type field : Nat)
  | refCast (type : Nat)
  | arrayNewFixed (type length : Nat)
  | arrayNewDefault (type : Nat)
  | arrayGet (type : Nat)
  | arraySet (type : Nat)
  | arrayLen
  deriving DecidableEq, Inhabited

/-- Whether the instruction set has the operator on the type. -/
def BinOp.isDefinedFor : BinOp → NumType → Bool
  | .and, type | .or, type => type = .i32
  | .rem, type => !type.isFloat
  | _, _ => true

/-- What a branch target resolves to: the frames open around an instruction, innermost first.
Frames that no branch can name have no label. -/
abbrev Frames := List (Option LabelId)

/-- How many frames stand inside the innermost one of this label. -/
def Frames.depth (frames : Frames) (label : LabelId) : Except Diagnostic Nat :=
  match frames.findIdx? (· == some label) with
  | some depth => .ok depth
  | none => .error (.rule .builtin (.unknownLabel label.index))

def Frames.depths (frames : Frames) : List LabelId → Except Diagnostic (List Nat)
  | [] => .ok []
  | label :: labels => do return (← frames.depth label) :: (← frames.depths labels)

mutual

/-- The stack code of an instruction. `indices` gives each function its number in the binary. -/
def Instr.flatten (indices : Array Nat) (frames : Frames) :
    Instr → Except Diagnostic (List FlatInstr)
  | .i32Const value => .ok [.i32Const value]
  | .i64Const value => .ok [.i64Const value]
  | .f32Const value => .ok [.f32Const value]
  | .f64Const value => .ok [.f64Const value]
  | .localGet index => .ok [.localGet index]
  | .localSet index value => do return (← value.flatten indices frames) ++ [.localSet index]
  | .globalGet index => .ok [.globalGet index]
  | .binary op type left right => do
    let left ← left.flatten indices frames
    let right ← right.flatten indices frames
    if op.isDefinedFor type then return left ++ right ++ [.binary op type]
    else throw (.rule .builtin (.undefinedOperator op.name type.title))
  | .eqz type value => do
    let value ← value.flatten indices frames
    if type.isFloat then throw (.rule .builtin (.undefinedEqz type.title))
    else return value ++ [.eqz type]
  | .call function args => do
    let args ← flattenAll indices frames args
    match indices[function]? with
    | some index => return args ++ [.call index]
    | none => throw (.rule .builtin (.undeclaredFunction function))
  | .block label result body => do
    return .block result :: (← flattenAll indices (some label :: frames) body) ++ [.close]
  | .loop label body => do
    return .loop :: (← flattenAll indices (some label :: frames) body) ++ [.close]
  | .cond result test yes no => do
    let test ← test.flatten indices frames
    let yes ← flattenAll indices (none :: frames) yes
    let alternative ←
      if no.isEmpty then pure []
      else do pure (.otherwise :: (← flattenAll indices (none :: frames) no))
    return test ++ .cond result :: yes ++ alternative ++ [.close]
  | .br label none => do return [.br (← frames.depth label)]
  | .br label (some value) => do
    return (← value.flatten indices frames) ++ [.br (← frames.depth label)]
  | .brIf label test => do
    return (← test.flatten indices frames) ++ [.brIf (← frames.depth label)]
  | .brTable targets default index => do
    return (← index.flatten indices frames)
      ++ [.brTable (← frames.depths targets) (← frames.depth default)]
  | .ret none => .ok [.ret]
  | .ret (some value) => do return (← value.flatten indices frames) ++ [.ret]
  | .drop value => do return (← value.flatten indices frames) ++ [.drop]
  | .seq body => flattenAll indices frames body
  | .unreachable => .ok [.unreachable]
  | .structNew type fields => do
    return (← flattenAll indices frames fields) ++ [.structNew type]
  | .structGet type field object => do
    return (← object.flatten indices frames) ++ [.structGet type field]
  | .refCast type value => do return (← value.flatten indices frames) ++ [.refCast type]
  | .arrayNewFixed type values => do
    return (← flattenAll indices frames values) ++ [.arrayNewFixed type values.length]
  | .arrayNewDefault type length => do
    return (← length.flatten indices frames) ++ [.arrayNewDefault type]
  | .arrayGet type array index => do
    return (← array.flatten indices frames) ++ (← index.flatten indices frames)
      ++ [.arrayGet type]
  | .arraySet type array index value => do
    return (← array.flatten indices frames) ++ (← index.flatten indices frames)
      ++ (← value.flatten indices frames) ++ [.arraySet type]
  | .arrayLen array => do return (← array.flatten indices frames) ++ [.arrayLen]

def flattenAll (indices : Array Nat) (frames : Frames) :
    List Instr → Except Diagnostic (List FlatInstr)
  | [] => .ok []
  | i :: is => do return (← i.flatten indices frames) ++ (← flattenAll indices frames is)

end

end FormCompiler.Wasm
