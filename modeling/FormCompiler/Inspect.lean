import FormCompiler.Form.Reader
import FormCompiler.Resolve

/-! Questions about a program that was checked, in terms of source text. They may make instances of
generic definitions, as the program itself would. -/

namespace FormCompiler

namespace Inspect

open Check

/-- Follows module names from a scope; nothing if one of them is no module. -/
def moduleScope? (p : Program) (scope : ScopeId) : List String → Option ScopeId
  | [] => some scope
  | name :: path => do
    let id ← p.scopes.resolve? p.entities scope name
    let inner ← (p.entities.get id).module?
    moduleScope? p inner path

/-- The type that text stands for in a scope; an exclamation mark is the type without values. -/
def typeOfText (scope : ScopeId) (text : String) : Check Ty := do
  if text = "!" then return .never
  match ← ofExcept (Form.read "query" text) with
  | form :: _ =>
    let t ← ofExcept (TypeExpr.ofForm form)
    (← get).solver.resolveType scope t
  | [] => broken .builtin .malformedType

def typesOfTexts (scope : ScopeId) : List String → Check (List Ty)
  | [] => return []
  | text :: texts => do
    let type ← typeOfText scope text
    return type :: (← typesOfTexts scope texts)

/-- The entity of a name, or the first function of that name. -/
def named? (p : Program) (scope : ScopeId) (name : String) : Option EntityId :=
  (p.scopes.resolve? p.entities scope name).or (p.scopes.overloads p.entities scope name).head?

def instantiate (generic : EntityId) (args : List Ty) : Check EntityId := do
  (← get).solver.instantiate generic args .builtin

/-- Copies the body of a function; gives the range of the copy, if there is a body. -/
def cloneBody? (d : FunctionDef) (subst : Subst) : Check (Option (ExprId × ExprId)) :=
  match d.body with
  | .expr first root => modifyGet fun p =>
    let (range, exprs) := p.exprs.cloneRange first root subst
    (some range, { p with exprs })
  | _ => return none

end Inspect

end FormCompiler
