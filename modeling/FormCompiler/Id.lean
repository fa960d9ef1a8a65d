/-! Identities. Entities, scopes and expressions are kept in tables and named by their index. -/

namespace FormCompiler

/-- Names an entity. An object's identity is also its runtime type id. -/
structure EntityId where
  index : Nat
  deriving DecidableEq, Inhabited

structure ScopeId where
  index : Nat
  deriving DecidableEq, Inhabited

structure ExprId where
  index : Nat
  deriving DecidableEq, Inhabited

namespace ExprId

def shift (offset : Nat) (id : ExprId) : ExprId := ⟨id.index + offset⟩

end ExprId

end FormCompiler
