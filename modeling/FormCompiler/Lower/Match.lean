import FormCompiler.Lower.Emission

/-! Matches. On values: a function of the module's own finds which case is the first to be equal, and a
table of branches leads to its arm. On types: each case looks for its number among the object's
ancestors, in order, and casts the object. -/

namespace FormCompiler

open Wasm (Instr LabelId ValueType)

namespace Lower

/-- Tests one case after another and returns its place from one, or nought when no case is equal. -/
def indexTests (type : Wasm.NumType) (index : Nat) : List Arm → Lower (List Instr)
  | [] => return [.i32Const 0]
  | arm :: arms => do
    match arm.pattern with
    | .type _ => throw (.here arm.location (.invalidPattern .typeAmongLiterals))
    | .literal value =>
      let test := Instr.cond none (.binary .eq type (.localGet 0) (literal value))
        [.ret (some (.i32Const (Int32.ofNat index)))] []
      return test :: (← indexTests type (index + 1) arms)

def matchIndexFunction (prim : Prim) (param : ValueType) (arms : List Arm) (location : Location) :
    Lower Nat := do
  match prim.numType? with
  | none => broken location .literalMatchNumber
  | some type =>
    let body ← indexTests type 1 arms
    let name := s!"__match_index_{(← get).matchIndexes}"
    modify fun s => { s with matchIndexes := s.matchIndexes + 1 }
    let index ← modifyModule (·.declareFunc name [param] (some .i32))
    modifyModule fun m => (index, m.defineFunc index [] body)

/-- Looks for a number (local 0) in an array (local 1) and returns 1 or 0. -/
def extendsBody (ids : Nat) (exit top : LabelId) : List Instr :=
  [.localSet 2 (.i32Const 0),
   .block exit none
    [.loop top
      [.brIf exit (.binary .ge .i32 (.localGet 2) (.arrayLen (.localGet 1))),
       .cond none (.binary .eq .i32 (.arrayGet ids (.localGet 1) (.localGet 2)) (.localGet 0))
        [.ret (some (.i32Const 1))] [],
       .localSet 2 (.binary .add .i32 (.localGet 2) (.i32Const 1)),
       .br top none]],
   .i32Const 0]

/-- The function that tests whether a number is among an object's ancestors, added when first needed. -/
def extendsFunction : Lower Nat := do
  match (← get).extendsFunction with
  | some index => return index
  | none =>
    let ids ← idsArray
    let exit ← freshLabel
    let top ← freshLabel
    let index ← modifyModule (·.declareFunc "__extends" [.i32, .ref ids] (some .i32))
    modifyModule fun m => ((), m.defineFunc index [.i32] (extendsBody ids exit top))
    modify fun s => { s with extendsFunction := some index }
    return index

/-- Leaves the match with the value of an arm. -/
def exitWith (exit : LabelId) (arm : Instr) : Option ValueType → Instr
  | some _ => .br exit (some arm)
  | none => .seq [arm, .br exit none]

variable (part : ExprId → Lower Instr)

def arm (binding : Option EntityId) (value : Instr) (body : ExprId) (keep : Bool) :
    Lower Instr := do
  let setting ←
    match binding with
    | some var => pure [Instr.localSet (← bindVar var) value]
    | none => pure []
  let code ← discardUnless keep body (← part body)
  return .seq (setting ++ [code])

/-- The arm for all other cases. Without one they cannot happen. -/
def defaultArm (m : Match) (operand : Nat) (result : Option ValueType) : Lower Instr :=
  match m.default with
  | some body => arm part m.defaultBinding (.localGet operand) body result.isSome
  | none => return .unreachable

/-- Nests the arms around the branch that chooses among them, first arm innermost. -/
def nestArms (operand : Nat) (exit : LabelId) (result : Option ValueType) (inner : List Instr) :
    List (Arm × LabelId) → Lower (List Instr)
  | [] => return inner
  | (case, label) :: rest => do
    let code ← arm part case.binding (.localGet operand) case.body result.isSome
    nestArms operand exit result [.block label none inner, exitWith exit code result] rest

def freshLabels : List Arm → Lower (List LabelId)
  | [] => return []
  | _ :: arms => do
    let label ← freshLabel
    return label :: (← freshLabels arms)

def literalDispatch (m : Match) (stored : ValueType) (operand : Nat) (exit : LabelId)
    (result : Option ValueType) (location : Location) : Lower Instr := do
  match ← typeOf m.operand with
  | .prim prim =>
    let function ← matchIndexFunction prim stored m.arms location
    let fallback ← freshLabel
    let labels ← freshLabels m.arms
    let choice := Instr.brTable (fallback :: labels) fallback (.call function [.localGet operand])
    let inner ← nestArms part operand exit result [choice] (m.arms.zip labels)
    let default ← defaultArm part m operand result
    return .block exit result [.block fallback none inner, default]
  | _ => broken location .literalMatchType

def typeCase (extends_ base operand : Nat) (exit : LabelId) (result : Option ValueType)
    (case : Arm) : Lower Instr := do
  match case.patternType with
  | some (.object object) =>
    let cast := Instr.refCast (← structIndex object) (.localGet operand)
    let code ← arm part case.binding cast case.body result.isSome
    let ancestors := Instr.structGet base 0 (.localGet operand)
    return .cond none (.call extends_ [.i32Const (runtimeId object), ancestors])
      [exitWith exit code result] []
  | _ => broken case.location .patternUnresolved

def typeCases (extends_ base operand : Nat) (exit : LabelId) (result : Option ValueType) :
    List Arm → Lower (List Instr)
  | [] => return []
  | case :: cases => do
    let code ← typeCase part extends_ base operand exit result case
    return code :: (← typeCases extends_ base operand exit result cases)

def typeDispatch (m : Match) (operand : Nat) (exit : LabelId) (result : Option ValueType) :
    Lower Instr := do
  let extends_ ← extendsFunction
  let base ← structIndex Program.objectId
  let cases ← typeCases part extends_ base operand exit result m.arms
  let default ← defaultArm part m operand result
  return .block exit result (cases ++ [default])

/-- A match: its operand is kept in a local of its own. -/
def select (m : Match) (type : Ty) (location : Location) : Lower Instr := do
  match ← valueType (← typeOf m.operand) with
  | none => broken location .scrutineeValue
  | some stored =>
    let value ← part m.operand
    let operand ← newLocal stored
    let result ← valueType type
    let exit ← freshLabel
    let dispatch ←
      if m.isTypeGuard then typeDispatch part m operand exit result
      else literalDispatch part m stored operand exit result location
    return .seq [.localSet operand value, dispatch]

end Lower

end FormCompiler
