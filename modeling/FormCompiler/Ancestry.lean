import FormCompiler.Entity

/-! Ancestors of object types. A chain leads from a type through its parents to the base type; the
chains of finished types are kept. -/

namespace FormCompiler

structure Ancestry where
  chains : List (EntityId × List EntityId) := []
  deriving Inhabited

namespace Ancestry

/-- The chain of a type, following at most `steps` parents, and the chains worked out on the way. -/
def chainWithin (entities : EntityTable) :
    Nat → Ancestry → EntityId → List EntityId × Ancestry
  | 0, a, id => ([id], a)
  | steps + 1, a, id =>
    match a.chains.lookup id with
    | some chain => (chain, a)
    | none =>
      let d := entities.object? id
      let (above, a) :=
        match d.bind (·.parent) with
        | some parent => chainWithin entities steps a parent
        | none => ([], a)
      let chain := id :: above
      if d.any (·.stage = .done) then (chain, ⟨(id, chain) :: a.chains⟩) else (chain, a)

/-- The type, its parent and so on up to the base type. -/
def chain (a : Ancestry) (entities : EntityTable) (id : EntityId) : List EntityId × Ancestry :=
  chainWithin entities (entities.size + 1) a id

/-- How many steps up `ancestor` is. -/
def distance? (a : Ancestry) (entities : EntityTable) (id ancestor : EntityId) :
    Option Nat × Ancestry :=
  let (chain, a) := a.chain entities id
  (chain.idxOf? ancestor, a)

def extends? (a : Ancestry) (entities : EntityTable) (id ancestor : EntityId) : Bool × Ancestry :=
  let (distance, a) := a.distance? entities id ancestor
  (distance.isSome, a)

/-- The nearest type above both. -/
def common? (a : Ancestry) (entities : EntityTable) (x y : EntityId) :
    Option EntityId × Ancestry :=
  let (other, a) := a.chain entities y
  let (chain, a) := a.chain entities x
  (chain.find? other.contains, a)

/-- The least type above two types. -/
def join? (a : Ancestry) (entities : EntityTable) (x y : Ty) : Option Ty × Ancestry :=
  match x, y with
  | .object left, .object right =>
    if left = right then (some x, a)
    else
      let (common, a) := a.common? entities left right
      (common.map .object, a)
  | _, _ => (Ty.join? (fun _ _ => none) x y, a)

end Ancestry

end FormCompiler
