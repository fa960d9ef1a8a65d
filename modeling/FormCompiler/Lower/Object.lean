import FormCompiler.Lower.Emission

/-! Object types. Each becomes a struct below that of its parent; its first field refers to a constant
array with the numbers of the object and its ancestors. -/

namespace FormCompiler

open Wasm (FieldDef)

namespace Lower

/-- Whether an object is declared before another: by the number of ancestors, then by age. -/
def declaredBefore (a b : EntityId × List EntityId) : Bool :=
  a.2.length < b.2.length || (a.2.length = b.2.length && a.1.index ≤ b.1.index)

/-- Puts an object in its place among objects in order. -/
def insertInOrder (object : EntityId × List EntityId) :
    List (EntityId × List EntityId) → List (EntityId × List EntityId)
  | [] => [object]
  | first :: rest =>
    if declaredBefore object first then object :: first :: rest
    else first :: insertInOrder object rest

/-- The objects that exist at run time with their ancestors, parents first. -/
def objectsInOrder (p : Program) : List (EntityId × List EntityId) :=
  (p.entities.concreteObjects.map fun (id, _) => (id, (p.ancestry.chain p.entities id).1)).foldr
    insertInOrder []

def declareStruct (object : EntityId) : Lower Unit := do
  let parent := ((← read).entities.object? object).bind (·.parent)
  let structs := (← get).structs
  let supertype := parent.bind fun parent => structs.lookup parent
  let name ← displayName object
  let index ← modifyModule (·.addStruct ⟨name, [], supertype⟩)
  modify fun s => { s with structs := (object, index) :: s.structs }

def declareStructs : List (EntityId × List EntityId) → Lower Unit
  | [] => return
  | (object, _) :: rest => do
    declareStruct object
    declareStructs rest

def fieldDefs : List Field → Lower (List FieldDef)
  | [] => return []
  | field :: fields => do
    let type ← storedType field.type (.fieldRepresentation field.name)
    return ⟨field.name, type, false⟩ :: (← fieldDefs fields)

/-- Gives the struct of an object its fields, and the object its array of ancestors. -/
def defineStruct (ids : Nat) (object : EntityId) (chain : List EntityId) : Lower Unit := do
  let layout := (((← read).entities.object? object).map (·.fields)).getD []
  let fields ← fieldDefs layout
  let index ← structIndex object
  modifyModule fun m => ((), m.setFields index (⟨"__ancestors", .ref ids, false⟩ :: fields))
  let name := "__chain_" ++ (← displayName object)
  let values := chain.map fun ancestor => .i32Const (runtimeId ancestor)
  let global ← modifyModule (·.addGlobal name (.ref ids) (.arrayNewFixed ids values))
  modify fun s => { s with chains := (object, global) :: s.chains }

def defineStructs (ids : Nat) : List (EntityId × List EntityId) → Lower Unit
  | [] => return
  | (object, chain) :: rest => do
    defineStruct ids object chain
    defineStructs ids rest

/-- Declares all object types. A program with no object of its own needs none. -/
def declareObjects : Lower Unit := do
  let objects := objectsInOrder (← read)
  if objects.all (·.1 = Program.objectId) then return
  let ids ← modifyModule (·.arrayType .i32 false)
  modify fun s => { s with idsArray := some ids }
  declareStructs objects
  defineStructs ids objects

end Lower

end FormCompiler
