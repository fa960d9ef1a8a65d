import FormCompiler.Wasm.Module

/-! The folded text of a module, one head or closing parenthesis a line, two blanks a level. -/

namespace FormCompiler.Wasm

def isNameChar (c : Char) : Bool := c.isAlphanum || c = '_' || c = '.' || c = '#'

/-- A name as it is printed: every other character becomes an underscore. -/
def printedName (name : String) : String :=
  "$" ++ String.ofList (name.toList.map fun c => if isNameChar c then c else '_')

def atLevel (level : Nat) (text : String) : String :=
  String.ofList (List.replicate (2 * level) ' ') ++ text

/-- A parenthesised head over its children, on one line when there are none. -/
def folded (level : Nat) (head : String) (childless : Bool) (children : List String) :
    List String :=
  if childless then [atLevel level ("(" ++ head ++ ")")]
  else atLevel level ("(" ++ head) :: children ++ [atLevel level ")"]

namespace Module

def typeName (m : Module) (index : Nat) : String :=
  match m.types[index]? with
  | some d => printedName d.name
  | none => toString index

def funcName (m : Module) (index : Nat) : String :=
  match m.funcs[index]? with
  | some f => printedName f.name
  | none => toString index

def globalName (m : Module) (index : Nat) : String :=
  match m.globals[index]? with
  | some g => printedName g.name
  | none => toString index

def valueType (m : Module) : ValueType → String
  | .i32 => "i32"
  | .i64 => "i64"
  | .f32 => "f32"
  | .f64 => "f64"
  | .ref index => "(ref null " ++ m.typeName index ++ ")"

def storage (m : Module) (type : ValueType) (mutable : Bool) : String :=
  if mutable then "(mut " ++ m.valueType type ++ ")" else m.valueType type

/-- The result of a block, function or condition, with a blank before it. -/
def resultText (m : Module) : Option ValueType → String
  | some type => " (result " ++ m.valueType type ++ ")"
  | none => ""

end Module

def labelText (label : LabelId) : String := s!"$l{label.index}"

def BinOp.mnemonic (op : BinOp) (type : NumType) : String :=
  type.name ++ "." ++ op.name ++ (if !type.isFloat && op.isSigned then "_s" else "")

mutual

def Instr.lines (m : Module) (level : Nat) : Instr → List String
  | .i32Const value => [atLevel level s!"(i32.const {value.toInt})"]
  | .i64Const value => [atLevel level s!"(i64.const {value.toInt})"]
  | .f32Const value => [atLevel level s!"(f32.const {value.text})"]
  | .f64Const value => [atLevel level s!"(f64.const {value.text})"]
  | .localGet index => [atLevel level s!"(local.get {index})"]
  | .localSet index value =>
    folded level s!"local.set {index}" false (value.lines m (level + 1))
  | .globalGet index => [atLevel level ("(global.get " ++ m.globalName index ++ ")")]
  | .binary op type left right =>
    folded level (op.mnemonic type) false (left.lines m (level + 1) ++ right.lines m (level + 1))
  | .eqz type value => folded level (type.name ++ ".eqz") false (value.lines m (level + 1))
  | .call function args =>
    folded level ("call " ++ m.funcName function) args.isEmpty (allLines m (level + 1) args)
  | .block label result body =>
    folded level ("block " ++ labelText label ++ m.resultText result) body.isEmpty
      (allLines m (level + 1) body)
  | .loop label body =>
    folded level ("loop " ++ labelText label) body.isEmpty (allLines m (level + 1) body)
  | .cond result test yes no =>
    let alternative :=
      if no.isEmpty then []
      else folded (level + 1) "else" false (allLines m (level + 2) no)
    folded level ("if" ++ m.resultText result) false
      (test.lines m (level + 1)
        ++ folded (level + 1) "then" yes.isEmpty (allLines m (level + 2) yes) ++ alternative)
  | .br label none => folded level ("br " ++ labelText label) true []
  | .br label (some value) =>
    folded level ("br " ++ labelText label) false (value.lines m (level + 1))
  | .brIf label test => folded level ("br_if " ++ labelText label) false (test.lines m (level + 1))
  | .brTable targets default index =>
    folded level
      ("br_table " ++ " ".intercalate (targets.map labelText) ++ " " ++ labelText default) false
      (index.lines m (level + 1))
  | .ret none => folded level "return" true []
  | .ret (some value) => folded level "return" false (value.lines m (level + 1))
  | .drop value => folded level "drop" false (value.lines m (level + 1))
  | .seq body => allLines m level body
  | .unreachable => [atLevel level "(unreachable)"]
  | .structNew type fields =>
    folded level ("struct.new " ++ m.typeName type) fields.isEmpty (allLines m (level + 1) fields)
  | .structGet type field object =>
    folded level ("struct.get " ++ m.typeName type ++ s!" {field}") false
      (object.lines m (level + 1))
  | .refCast type value =>
    folded level ("ref.cast (ref null " ++ m.typeName type ++ ")") false
      (value.lines m (level + 1))
  | .arrayNewFixed type values =>
    folded level ("array.new_fixed " ++ m.typeName type ++ s!" {values.length}") values.isEmpty
      (allLines m (level + 1) values)
  | .arrayNewDefault type length =>
    folded level ("array.new_default " ++ m.typeName type) false (length.lines m (level + 1))
  | .arrayGet type array index =>
    folded level ("array.get " ++ m.typeName type) false
      (array.lines m (level + 1) ++ index.lines m (level + 1))
  | .arraySet type array index value =>
    folded level ("array.set " ++ m.typeName type) false
      (array.lines m (level + 1) ++ index.lines m (level + 1) ++ value.lines m (level + 1))
  | .arrayLen array => folded level "array.len" false (array.lines m (level + 1))

def allLines (m : Module) (level : Nat) : List Instr → List String
  | [] => []
  | i :: is => i.lines m level ++ allLines m level is

end

namespace Module

def fieldText (m : Module) (field : FieldDef) : String :=
  " (field " ++ printedName field.name ++ " " ++ m.storage field.type field.mutable ++ ")"

def typeText (m : Module) : TypeDef → String
  | .struct d =>
    let supertype := match d.supertype with
      | some index => " " ++ m.typeName index
      | none => ""
    "(type " ++ printedName d.name ++ " (sub" ++ supertype ++ " (struct"
      ++ String.join (d.fields.map m.fieldText) ++ ")))"
  | .array d =>
    "(type " ++ printedName d.name ++ " (array " ++ m.storage d.element d.mutable ++ "))"

/-- All types stand in one recursive group. -/
def typeLines (m : Module) : List String :=
  if m.types.isEmpty then []
  else
    atLevel 1 "(rec" :: m.types.toList.map (fun d => atLevel 2 (m.typeText d)) ++ [atLevel 1 ")"]

def globalLines (m : Module) (g : Global) : List String :=
  atLevel 1 ("(global " ++ printedName g.name ++ " " ++ m.valueType g.type)
    :: g.init.lines m 2 ++ [atLevel 1 ")"]

def funcHeader (m : Module) (f : Func) : String :=
  let exported := match f.exportName with
    | some name => " (export \"" ++ name ++ "\")"
    | none => ""
  let imported := match f.host? with
    | some source => " (import \"" ++ source.module ++ "\" \"" ++ source.name ++ "\")"
    | none => ""
  "(func " ++ printedName f.name ++ exported ++ imported
    ++ String.join (f.params.map fun type => " (param " ++ m.valueType type ++ ")")
    ++ m.resultText f.result

def funcLines (m : Module) (f : Func) : List String :=
  let locals :=
    if f.locals.isEmpty then []
    else [atLevel 2 ("(local " ++ " ".intercalate (f.locals.map m.valueType) ++ ")")]
  atLevel 1 (m.funcHeader f) :: locals ++ allLines m 2 f.body ++ [atLevel 1 ")"]

/-- Functions as they are printed, imported ones first. -/
def printedFuncs (m : Module) : List Func :=
  m.funcs.toList.filter (·.host?.isSome) ++ m.funcs.toList.filter (·.host?.isNone)

def lines (m : Module) : List String :=
  "(module" :: m.typeLines ++ m.globals.toList.flatMap m.globalLines
    ++ m.printedFuncs.flatMap m.funcLines ++ [")"]

def wat (m : Module) : String := String.join (m.lines.map (· ++ "\n"))

end Module

end FormCompiler.Wasm
