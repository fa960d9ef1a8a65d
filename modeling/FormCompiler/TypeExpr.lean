import FormCompiler.Form

/-! Type expressions as written, and the replacement of type parameters by types. -/

namespace FormCompiler

inductive TypeExpr where
  | named (name : String) (location : Location)
  /-- A generic type with its arguments. -/
  | apply (name : String) (args : List TypeExpr) (location : Location)
  /-- A type parameter that was replaced. -/
  | resolved (type : Ty)
  deriving Inhabited

/-- Types for type parameters; the first entry for a name counts. -/
abbrev Subst := List (String × Ty)

namespace TypeExpr

def location? : TypeExpr → Option Location
  | named _ loc | apply _ _ loc => some loc
  | resolved _ => none

mutual

/-- Replaces parameters that stand alone or as arguments, not the heads of applications. -/
def substitute (subst : Subst) : TypeExpr → TypeExpr
  | named name loc =>
    match subst.lookup name with
    | some type => resolved type
    | none => named name loc
  | apply name args loc => apply name (substituteAll subst args) loc
  | resolved type => resolved type

def substituteAll (subst : Subst) : List TypeExpr → List TypeExpr
  | [] => []
  | t :: ts => substitute subst t :: substituteAll subst ts

end

theorem substituteAll_eq_map (subst : Subst) (ts : List TypeExpr) :
    substituteAll subst ts = ts.map (substitute subst) := by
  induction ts with
  | nil => rfl
  | cons t ts ih => simp [substituteAll, ih]

mutual

/-- Reads a name, or a name with at least one argument in a list. -/
def ofForm : Form → Except Diagnostic TypeExpr
  | .identifier name loc => .ok (named name loc)
  | .list (head :: arg :: args) loc =>
    match head.identifier? with
    | none => .error (.rule head.location .typeNameExpected)
    | some name =>
      match ofForms (arg :: args) with
      | .ok types => .ok (apply name types loc)
      | .error e => .error e
  | form => .error (.rule form.location .malformedType)

def ofForms : List Form → Except Diagnostic (List TypeExpr)
  | [] => .ok []
  | form :: forms =>
    match ofForm form with
    | .error e => .error e
    | .ok type =>
      match ofForms forms with
      | .ok types => .ok (type :: types)
      | .error e => .error e

end

/-- Reads a name with its type, written `(: name Type)`. -/
def typedName (form : Form) : Except Diagnostic (String × TypeExpr) :=
  match form.items with
  | [colon, name, type] =>
    if colon.identifier? = some ":" then
      match name.identifier? with
      | none => .error (.rule name.location .nameExpected)
      | some text => (text, ·) <$> ofForm type
    else .error (.rule form.location .typedNameExpected)
  | _ => .error (.rule form.location .typedNameExpected)

end TypeExpr

end FormCompiler
