import FormCompiler.Entity

/-! What a declaration says before its body: names, type parameters, parameters, fields, paths. -/

namespace FormCompiler

/-- The head of a function and the forms of its body. -/
structure FunctionHeader where
  name : String
  typeParams : List String := []
  params : Option (List Param) := none
  returnExpr : Option TypeExpr := none
  body : List Form := []

/-- The name a declaration starts with, after its keyword. -/
def declaredName (keyword : String) (location : Location) (items : List Form) :
    Except Diagnostic String :=
  match items.head?.bind Form.identifier? with
  | some name => .ok name
  | none => .error (.rule location (.nameMissing keyword))

/-- A parameter. A bare `self` has the type of the receiver, where there is one. -/
def Param.ofForm (receiver : Option TypeExpr) (form : Form) : Except Diagnostic Param := do
  match form.identifier?, receiver with
  | some "self", some target => return ⟨"self", target, form.location⟩
  | _, _ =>
    let (name, type) ← TypeExpr.typedName form
    return ⟨name, type, form.location⟩

namespace FunctionHeader

/-- Reads the parts before the body, in any order; a later one replaces an earlier one. -/
def readParts (receiver : Option TypeExpr) (h : FunctionHeader) :
    List Form → Except Diagnostic FunctionHeader
  | [] => .ok h
  | item :: rest => do
    if item.startsWith "type_params" then
      readParts receiver { h with typeParams := ← Form.names item.tail } rest
    else if item.startsWith "parameters" then
      readParts receiver { h with params := some (← item.tail.mapM (Param.ofForm receiver)) } rest
    else if item.startsWith "return_type" then
      match item.tail with
      | [type] => readParts receiver { h with returnExpr := some (← TypeExpr.ofForm type) } rest
      | _ => .error (.rule item.location .returnTypeArity)
    else .ok { h with body := item :: rest }

def ofItems (receiver : Option TypeExpr) (location : Location) (items : List Form) :
    Except Diagnostic (FunctionHeader × List Param) := do
  let name ← declaredName "fn" location items
  let header ← readParts receiver { name } items.tail
  match header.params with
  | some params => return (header, params)
  | none => .error (.rule location (.parametersMissing name))

end FunctionHeader

namespace ObjectDef

/-- Reads the parts of an object declaration. Fields must have different names. -/
def readParts (d : ObjectDef) : List Form → Except Diagnostic ObjectDef
  | [] => .ok d
  | item :: rest => do
    if item.startsWith "type_params" then
      readParts { d with typeParams := ← Form.names item.tail } rest
    else if item.startsWith "extends" then
      match item.tail with
      | [parent] => readParts { d with parentExpr := some (← TypeExpr.ofForm parent) } rest
      | _ => .error (.rule item.location .extendsArity)
    else
      let (name, type) ← TypeExpr.typedName item
      if d.fieldExprs.any (·.1 == name) then
        .error (.here item.location (.duplicateBinding name))
      else readParts { d with fieldExprs := d.fieldExprs ++ [(name, type)] } rest

end ObjectDef

/-- The path of a `use`: one name, or several after `::`. -/
def usePath (form : Form) : Except Diagnostic (List String) :=
  match form.identifier? with
  | some name => .ok [name]
  | none =>
    if form.startsWith "::" then Form.names form.tail
    else .error (.rule form.location .usePath)

def useParts (location : Location) (items : List Form) :
    Except Diagnostic (List String × Option String) := do
  let (form, alias?) ←
    match items with
    | [form] => pure (form, none)
    | [form, given] =>
      match given.identifier? with
      | some name => pure (form, some name)
      | none => .error (.rule given.location .useAlias)
    | _ => .error (.rule location .useArity)
  let path ← usePath form
  if path.isEmpty then .error (.rule location .usePathEmpty) else return (path, alias?)

end FormCompiler
