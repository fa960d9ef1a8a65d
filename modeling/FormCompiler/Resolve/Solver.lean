import FormCompiler.Program

/-! The three questions on which resolution recurs. Everything else is written in terms of answers to
them, so that one definition ties the knot. -/

namespace FormCompiler

structure Solver where
  aliased : EntityId → Check Ty
  object : EntityId → Check Unit
  expr : ExprId → ScopeId → Check Ty

namespace Check

/-- Runs `act`, and `after` whether it succeeds or not. -/
def afterwards {α : Type} (after : Program → Program) (act : Check α) : Check α := fun p =>
  match act p with
  | .ok a p => .ok a (after p)
  | .error d p => .error d (after p)

def instanceLimit : Nat := 64

/-- Notes that a definition is being instantiated. Doing so inside itself, or too deep, is refused. -/
def enterInstance (generic : EntityId) (args : List Ty) (location : Location) : Check Unit := do
  let p ← get
  if p.instantiating.contains (generic, args) || instanceLimit ≤ p.instanceDepth then
    let names := args.map p.entities.typeName
    fail location
      (.cyclicInstantiation ((p.entities.get generic).name ++ "<" ++ ", ".intercalate names ++ ">"))
  set { p with
    instantiating := (generic, args) :: p.instantiating
    instanceDepth := p.instanceDepth + 1 }

/-- Runs `act`; afterwards the innermost instantiation is no longer in progress. -/
def leavingKey {α : Type} (act : Check α) : Check α :=
  afterwards (fun p => { p with instantiating := p.instantiating.tail }) act

/-- Runs `act`; afterwards one instantiation less is nested. -/
def leavingDepth {α : Type} (act : Check α) : Check α :=
  afterwards (fun p => { p with instanceDepth := p.instanceDepth - 1 }) act

/-- Refuses a number of type arguments other than the definition's. -/
def expectArity (name : String) (expected found : Nat) (location : Location) : Check Unit :=
  unless expected = found do fail location (.invalidGenericArgs name expected found)

/-- The instance made for the same arguments before. -/
def cached? (instances : Instances) (args : List Ty) : Option EntityId := instances.lookup args

end Check

end FormCompiler
