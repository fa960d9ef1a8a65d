import FormCompiler.Wasm.Instr

/-! A WebAssembly module under construction: its types, functions and globals, each named by the
place it was added at. -/

namespace FormCompiler.Wasm

structure FieldDef where
  name : String
  type : ValueType
  mutable : Bool
  deriving DecidableEq, Inhabited

structure StructDef where
  name : String
  fields : List FieldDef
  supertype : Option Nat
  deriving DecidableEq, Inhabited

structure ArrayDef where
  name : String
  element : ValueType
  mutable : Bool
  deriving DecidableEq, Inhabited

inductive TypeDef where
  | struct (shape : StructDef)
  | array (shape : ArrayDef)
  deriving DecidableEq, Inhabited

namespace TypeDef

def name : TypeDef → String
  | struct d => d.name
  | array d => d.name

end TypeDef

structure ImportName where
  module : String
  name : String
  deriving DecidableEq, Inhabited

structure Func where
  name : String
  params : List ValueType
  result : Option ValueType
  locals : List ValueType := []
  body : List Instr := []
  exportName : Option String := none
  /-- Set for functions of the host, which have neither locals nor a body. -/
  host? : Option ImportName := none
  deriving Inhabited

structure Global where
  name : String
  type : ValueType
  init : Instr
  deriving Inhabited

structure Module where
  types : Array TypeDef := #[]
  funcs : Array Func := #[]
  globals : Array Global := #[]
  labels : Nat := 0
  deriving Inhabited

namespace Module

def struct? (m : Module) (index : Nat) : Option StructDef :=
  match m.types[index]? with
  | some (.struct d) => some d
  | _ => none

def array? (m : Module) (index : Nat) : Option ArrayDef :=
  match m.types[index]? with
  | some (.array d) => some d
  | _ => none

def addStruct (m : Module) (d : StructDef) : Nat × Module :=
  (m.types.size, { m with types := m.types.push (.struct d) })

/-- Gives a struct its fields; other types stay as they are. -/
def setFields (m : Module) (index : Nat) (fields : List FieldDef) : Module :=
  match m.struct? index with
  | some d => { m with types := m.types.setIfInBounds index (.struct { d with fields := fields }) }
  | none => m

def isArrayOf (element : ValueType) (mutable : Bool) : TypeDef → Bool
  | .array d => d.element = element && d.mutable = mutable
  | .struct _ => false

/-- The array type with this element, added when it is not there yet. -/
def arrayType (m : Module) (element : ValueType) (mutable : Bool) : Nat × Module :=
  match m.types.findIdx? (isArrayOf element mutable) with
  | some index => (index, m)
  | none =>
    let index := m.types.size
    (index, { m with types := m.types.push (.array ⟨s!"array_{index}", element, mutable⟩) })

/-- Walks the declared supertypes of `sub` in search of `sup`, at most `steps` times. -/
def isSubtypeWithin (m : Module) (sup : Nat) : Nat → Nat → Bool
  | 0, sub => sub = sup
  | steps + 1, sub =>
    if sub = sup then true
    else
      match (m.struct? sub).bind (·.supertype) with
      | some next => isSubtypeWithin m sup steps next
      | none => false

/-- Whether `sub` is `sup` or has it among its supertypes. -/
def isSubtype (m : Module) (sub sup : Nat) : Bool := m.isSubtypeWithin sup (m.types.size + 1) sub

def addFunc (m : Module) (f : Func) : Nat × Module :=
  (m.funcs.size, { m with funcs := m.funcs.push f })

def declareFunc (m : Module) (name : String) (params : List ValueType)
    (result : Option ValueType) : Nat × Module :=
  m.addFunc { name, params, result }

def importFunc (m : Module) (name : String) (source : ImportName) (params : List ValueType)
    (result : Option ValueType) : Nat × Module :=
  m.addFunc { name, params, result, host? := some source }

def defineFunc (m : Module) (index : Nat) (locals : List ValueType) (body : List Instr) : Module :=
  { m with funcs := m.funcs.modify index fun f => { f with locals, body } }

def exportFunc (m : Module) (index : Nat) (name : String) : Module :=
  { m with funcs := m.funcs.modify index fun f => { f with exportName := some name } }

def exported? (m : Module) (name : String) : Option (Nat × Func) := do
  let index ← m.funcs.findIdx? (·.exportName == some name)
  let func ← m.funcs[index]?
  return (index, func)

def addGlobal (m : Module) (name : String) (type : ValueType) (init : Instr) : Nat × Module :=
  (m.globals.size, { m with globals := m.globals.push ⟨name, type, init⟩ })

def freshLabel (m : Module) : LabelId × Module :=
  (⟨m.labels + 1⟩, { m with labels := m.labels + 1 })

/-- Whether the module needs the garbage-collection proposal. -/
def usesGc (m : Module) : Bool := !m.types.isEmpty

/-- Numbers functions from the two counters on, imported ones from `nextImport`. -/
def numberFrom : Nat → Nat → List Func → List Nat
  | _, _, [] => []
  | nextImport, nextDefined, f :: fs =>
    if f.host?.isSome then nextImport :: numberFrom (nextImport + 1) nextDefined fs
    else nextDefined :: numberFrom nextImport (nextDefined + 1) fs

/-- The number each function has in the binary, where imported functions come first. -/
def binaryIndices (m : Module) : List Nat :=
  numberFrom 0 (m.funcs.toList.countP (·.host?.isSome)) m.funcs.toList

end Module

end FormCompiler.Wasm
