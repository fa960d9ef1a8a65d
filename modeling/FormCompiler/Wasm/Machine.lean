import FormCompiler.Wasm.Value

/-! The reference machine: it runs folded instructions as they stand. Calls nest to a limit, which is
an argument of the call; loops end by themselves or after a number of rounds. -/

namespace FormCompiler.Wasm

structure HostCall where
  source : ImportName
  args : List Value
  deriving Inhabited

/-- What outlives a call: all objects, the calls of the host so far, and what the host keeps between them. -/
structure Store where
  heap : Heap := #[]
  log : Array HostCall := #[]
  memory : List (ValueType × Value) := []
  deriving Inhabited

/-- Why a run stopped early: the program's own failure, or a loop with too many rounds. -/
inductive Stop where
  | trap (cause : Trap)
  | unfinished
  deriving DecidableEq, Inhabited

/-- What the instructions of one activation work on. -/
structure Activation where
  locals : Array Value
  store : Store
  deriving Inhabited

abbrev Exec := EStateM Stop Activation

/-- Steps between activations, which see no locals. -/
abbrev Between := EStateM Stop Store

/-- Functions of the host. They may read and write all of the store. -/
abbrev Hosts := ImportName → Option (List Value → Between (Option Value))

/-- A host that goes by the arguments and by which call of it this is, from one. -/
structure Host where
  source : ImportName
  respond : Nat → List Value → Except Trap (Option Value)

def Host.answer (host : Host) (args : List Value) : Between (Option Value) := do
  match host.respond ((← get).log.countP (·.source = host.source)) args with
  | .ok value => return value
  | .error cause => throw (.trap cause)

/-- How an instruction ended: with a value or none, on the way to a label, or out of the function. -/
inductive Flow where
  | next (value : Option Value)
  | branch (label : LabelId) (value : Option Value)
  | leave (value : Option Value)
  deriving DecidableEq, Inhabited

/-- What an activation needs of its surroundings. -/
structure Surroundings where
  module : Module
  globals : Array Value
  /-- How many rounds a loop may take. -/
  rounds : Nat
  /-- Calls a function of the module. -/
  invoke : Nat → List Value → Between (Option Value)

namespace Exec

def trap {α : Type} (cause : Trap) : Exec α := throw (.trap cause)

def malformed {α : Type} (fault : Malformation) : Exec α := trap (.malformed fault)

def give (value : Value) : Exec Flow := return .next (some value)

def ofExcept {α : Type} : Except Trap α → Exec α
  | .ok a => return a
  | .error cause => trap cause

def heap : Exec Heap := return (← get).store.heap

/-- Runs an operand. Branches and returns pass through. -/
@[inline] def operand (run : Exec Flow) (use : Value → Exec Flow) : Exec Flow := do
  match ← run with
  | .next (some value) => use value
  | .next none => malformed .noOperand
  | flow => return flow

def index : Value → Exec Int32
  | .i32 value => return value
  | value => do malformed (.notIndex (value.text (← heap)))

def object : Value → Exec (Nat × HeapObject)
  | .ref (some address) => do
    match (← heap)[address]? with
    | some object => return (address, object)
    | none => trap .nullReference
  | .ref none => trap .nullReference
  | value => do malformed (.notReference (value.text (← heap)))

def allocate (object : HeapObject) : Exec Flow := do
  let address := (← heap).size
  modify fun s => { s with store := { s.store with heap := s.store.heap.push object } }
  give (.ref (some address))

def write (address : Nat) (change : HeapObject → HeapObject) : Exec Unit :=
  modify fun s => { s with store := { s.store with heap := s.store.heap.modify address change } }

def place (index : Int32) (length : Nat) : Exec Nat :=
  if 0 ≤ index.toInt ∧ index.toInt < length then return index.toInt.toNat
  else trap (.outOfBounds index length)

def getLocal (index : Nat) : Exec Flow := do
  match (← get).locals[index]? with
  | some value => give value
  | none => malformed (.noLocal index)

def setLocal (index : Nat) (value : Value) : Exec Flow := do
  if index < (← get).locals.size then
    modify fun s => { s with locals := s.locals.setIfInBounds index value }
    return .next none
  else malformed (.noLocal index)

def getField (field : Nat) (reference : Value) : Exec Flow := do
  match ← object reference with
  | (_, .struct _ fields) =>
    match fields[field]? with
    | some value => give value
    | none => malformed (.noField field)
  | (_, .array _ _) => malformed .fieldOfArray

def elements (address : Nat) : Exec (Array Value) := do
  match (← heap)[address]? with
  | some (.array _ elements) => return elements
  | _ => malformed .elementOfStruct

def getElement (address : Nat) (index : Int32) : Exec Flow := do
  let elements ← elements address
  let place ← place index elements.size
  match elements[place]? with
  | some value => give value
  | none => trap (.outOfBounds index elements.size)

/-- How many elements the array at an address has, for writing to it. -/
def writableSize (address : Nat) : Exec Nat := do
  match (← heap)[address]? with
  | some (.array _ elements) => return elements.size
  | _ => malformed .writeToStruct

def setElement (address : Nat) (index : Int32) (value : Value) : Exec Flow := do
  let size ← writableSize address
  let place ← place index size
  write address fun
    | .array type elements => .array type (elements.setIfInBounds place value)
    | object => object
  return .next none

/-- A reference that does not point to the type or one of its subtypes is refused. -/
def cast (m : Module) (type : Nat) (value : Value) : Exec Flow := do
  match value with
  | .ref (some address) =>
    match (← heap)[address]? with
    | some object =>
      if m.isSubtype object.type type then give value else trap (.castFailure type)
    | none => give value
  | _ => give value

def newDefault (m : Module) (type : Nat) (length : Int32) : Exec Flow := do
  if length.toInt < 0 then trap (.outOfBounds length 0)
  match m.array? type with
  | some d => allocate (.array type (Array.replicate length.toInt.toNat (.zero d.element)))
  | none => malformed (.notArrayType type)

def arrayLength (address : Nat) : Exec Flow := do
  let elements ← elements address
  if elements.size < 0x80000000 then give (.i32 (Int32.ofNat elements.size))
  else trap .integerOverflow

def isZero (value : Value) : Exec Flow := do
  match value with
  | .i32 value => give (.ofBool (value = 0))
  | .i64 value => give (.ofBool (value = 0))
  | other => malformed (.notInteger (other.text (← heap)))

/-- Calls a function and goes on with the locals as they are. -/
def call (env : Surroundings) (function : Nat) (args : List Value) : Exec Flow := fun s =>
  match env.invoke function args s.store with
  | .ok value store => .ok (.next value) { s with store := store }
  | .error stop store => .error stop { s with store := store }

def target (targets : List LabelId) (default : LabelId) (index : Int32) : LabelId :=
  if index.toInt < 0 then default else targets[index.toInt.toNat]?.getD default

/-- A block ends where it is branched to. -/
def block (label : LabelId) (body : Exec Flow) : Exec Flow := do
  match ← body with
  | .branch target value =>
    if target = label then return .next value else return .branch target value
  | flow => return flow

/-- A loop starts again where it is branched to. -/
def iterate (label : LabelId) (body : Exec Flow) : Nat → Exec Flow
  | 0 => throw .unfinished
  | rounds + 1 => do
    match ← body with
    | .branch target value =>
      if target = label then iterate label body rounds else return .branch target value
    | flow => return flow

end Exec

open Exec in
mutual

def Instr.run (env : Surroundings) : Instr → Exec Flow
  | .i32Const value => give (.i32 value)
  | .i64Const value => give (.i64 value)
  | .f32Const value => give (.f32 value)
  | .f64Const value => give (.f64 value)
  | .localGet index => getLocal index
  | .localSet index value => operand (value.run env) (setLocal index)
  | .globalGet index =>
    match env.globals[index]? with
    | some value => give value
    | none => malformed (.noGlobal index)
  | .binary op type left right =>
    operand (left.run env) fun left => operand (right.run env) fun right => do
      give (← ofExcept (op.apply type (← heap) left right))
  | .eqz _ value => operand (value.run env) isZero
  | .call function args => runOperands env args (call env function)
  | .block label _ body => block label (runAll env none body)
  | .loop label body => iterate label (runAll env none body) env.rounds
  | .cond _ test yes no =>
    operand (test.run env) fun test => do
      if (← index test) ≠ 0 then runAll env none yes else runAll env none no
  | .br label none => return .branch label none
  | .br label (some value) => operand (value.run env) fun value => return .branch label (some value)
  | .brIf label test =>
    operand (test.run env) fun test => do
      if (← index test) ≠ 0 then return .branch label none else return .next none
  | .brTable targets default place =>
    operand (place.run env) fun place => do
      return .branch (target targets default (← index place)) none
  | .ret none => return .leave none
  | .ret (some value) => operand (value.run env) fun value => return .leave (some value)
  | .drop value => do
    match ← value.run env with
    | .next _ => return .next none
    | flow => return flow
  | .seq body => runAll env none body
  | .unreachable => trap .unreachable
  | .structNew type fields =>
    runOperands env fields fun values => allocate (.struct type values.toArray)
  | .structGet _ field object => operand (object.run env) (getField field)
  | .refCast type value => operand (value.run env) (cast env.module type)
  | .arrayNewFixed type values =>
    runOperands env values fun values => allocate (.array type values.toArray)
  | .arrayNewDefault type length =>
    operand (length.run env) fun length => do newDefault env.module type (← index length)
  | .arrayGet _ array place =>
    operand (array.run env) fun array => do
      let (address, _) ← object array
      operand (place.run env) fun place => do getElement address (← index place)
  | .arraySet _ array place value =>
    operand (array.run env) fun array => do
      let (address, _) ← object array
      operand (place.run env) fun place => do
        let place ← index place
        operand (value.run env) (setElement address place)
  | .arrayLen array =>
    operand (array.run env) fun array => do
      let (address, _) ← object array
      arrayLength address

/-- Runs instructions in order. The last one gives the value. -/
def runAll (env : Surroundings) (last : Option Value) : List Instr → Exec Flow
  | [] => return .next last
  | i :: is => do
    match ← i.run env with
    | .next value => runAll env value is
    | flow => return flow

def runOperands (env : Surroundings) : List Instr → (List Value → Exec Flow) → Exec Flow
  | [], use => use []
  | i :: is, use =>
    operand (i.run env) fun value => runOperands env is fun values => use (value :: values)

end

theorem Instr.run_seq (env : Surroundings) (body : List Instr) : (Instr.seq body).run env = runAll env none body := by
  rw [Instr.run]

structure Instance where
  module : Module
  globals : Array Value := #[]
  hosts : Hosts := fun _ => none
  /-- How deep calls of defined functions may nest. -/
  depthLimit : Nat := 200
  rounds : Nat := 0x4000000000000000

namespace Instance

/-- Asks the host. The call is noted before it is answered. -/
def callHost (i : Instance) (source : ImportName) (args : List Value) : Between (Option Value) := do
  match i.hosts source with
  | none => throw (.trap (.unknownImport source))
  | some host =>
    modify fun s => { s with log := s.log.push ⟨source, args⟩ }
    host args

/-- Runs the body of a function. `invoke` answers the calls in it. -/
def runBody (i : Instance) (invoke : Nat → List Value → Between (Option Value)) (f : Func)
    (args : List Value) : Between (Option Value) := fun store =>
  let env : Surroundings := ⟨i.module, i.globals, i.rounds, invoke⟩
  let locals := (args ++ f.locals.map Value.zero).toArray
  match runAll env none f.body ⟨locals, store⟩ with
  | .error stop s => .error stop s.store
  | .ok (.branch label _) s => .error (.trap (.malformed (.escapedBranch label f.name))) s.store
  | .ok (.next value) s | .ok (.leave value) s =>
    .ok (if f.result.isSome then value else none) s.store

/-- Finds a function and checks its arguments. Functions of the host are answered; `enter` runs the
others. -/
def dispatch (i : Instance) (enter : Func → List Value → Between (Option Value)) (function : Nat)
    (args : List Value) : Between (Option Value) := do
  match i.module.funcs[function]? with
  | none => throw (.trap (.malformed (.noFunction function)))
  | some f =>
    if args.length ≠ f.params.length then
      throw (.trap (.argumentCount f.name f.params.length args.length))
    match f.host? with
    | some source => i.callHost source args
    | none => enter f args

/-- Calls a function where `depth` more activations are allowed. -/
def callWithin (i : Instance) : Nat → Nat → List Value → Between (Option Value)
  | 0 => i.dispatch fun _ _ => throw (.trap .callStackExhausted)
  | depth + 1 => i.dispatch (i.runBody (i.callWithin depth))

def call (i : Instance) (function : Nat) (args : List Value) : Between (Option Value) :=
  i.callWithin i.depthLimit function args

def callExport (i : Instance) (name : String) (args : List Value) : Between (Option Value) :=
  match i.module.exported? name with
  | some (function, _) => i.call function args
  | none => throw (.trap (.unknownExport name))

/-- Computes the next global. No host is there yet. -/
def addGlobal (i : Instance) (g : Global) : Between Instance := fun store =>
  let env : Surroundings := ⟨i.module, i.globals, i.rounds, i.call⟩
  match g.init.run env ⟨#[], store⟩ with
  | .error stop s => .error stop s.store
  | .ok (.next (some value)) s => .ok { i with globals := i.globals.push value } s.store
  | .ok _ s => .error (.trap (.malformed (.globalValue g.name))) s.store

def ofModule (m : Module) : Between Instance :=
  m.globals.toList.foldlM addGlobal { module := m }

/-- Adds a function of the host, in place of an earlier one of the same name. -/
def withHost (i : Instance) (host : Host) : Instance :=
  { i with hosts := fun source => if source = host.source then some host.answer else i.hosts source }

end Instance

end FormCompiler.Wasm
